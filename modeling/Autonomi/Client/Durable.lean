/-
  What an upload leaves in a network of nodes that answer as their handlers do (`batch.rs`,
  `merkle.rs`, `data.rs` and `file.rs` of `ant-core/src/data/client`).
-/
import Autonomi.Client.AcceptedPool
import Autonomi.Client.Modes
import Autonomi.Client.ReadAfterWrite

namespace Autonomi.AntClient

open Lib AntNode

variable (P : Primitives) (C : ClientEvm) (rewards : PeerId → AntNode.RewardsAddress) (s : Swarm)
  (client : Client)

/-- A group that has been found for the address has the chunk on a majority of its peers, for good. -/
def Durable (found : XorName → List PeerId → Prop) (address : XorName) : Prop :=
  ∃ group, found address group ∧ OnMajority P C rewards s group address

/-- What a client hears when it asks for quotes for the chunk: no group names a peer twice, and whoever
    answers does so as its handler does. -/
structure HearsQuotes (net : Network) (content : Bytes) : Prop where
  distinct : ∀ peers, net.p2p.findClosestNodes (computeAddress P content)
    (client.closeGroupSize + 1) = .ok peers → peers.Nodup
  quotes : ∀ group, net.closeGroupPeers client (computeAddress P content) = .ok group →
    ∀ peer ∈ (group.take closeGroupSize).zipIdx,
      HearsQuote P C rewards s net (quoteRequestOf P content) peer

/-- What a turn of the waves hears for these chunks. -/
structure Turn.Hears (contents : Set Bytes) (turn : Turn) : Prop where
  quotes : ∀ content ∈ contents, HearsQuotes P C rewards s client (turn.quoteNet content) content
  puts : ∀ chunk : PaidChunk, chunk.content ∈ contents → ∀ peer ∈ chunk.quotedPeers.zipIdx,
    HearsPut P s (turn.putNet chunk) chunk.content chunk.proofBytes peer

/-- The groups that a turn finds for these chunks. -/
def Turn.Finds (contents : Set Bytes) (turn : Turn) (address : XorName) (group : List PeerId) : Prop :=
  ∃ content ∈ contents, computeAddress P content = address ∧
    (turn.quoteNet content).closeGroupPeers client address = .ok group

/-- What the stores with these proofs hear (again of groups without repetition). -/
structure MerkleStoreTurn.Hears (contents : Set Bytes) (proofs : Lookup XorName Bytes)
    (store : MerkleStoreTurn) : Prop where
  distinct : ∀ content ∈ contents, ∀ peers,
    (store.net (computeAddress P content)).p2p.findClosestNodes (computeAddress P content)
      (client.closeGroupSize + 1) = .ok peers → peers.Nodup
  puts : ∀ content ∈ contents, ∀ proof, proofs (computeAddress P content) = some proof →
    ∀ group, (store.net (computeAddress P content)).closeGroupPeers client
        (computeAddress P content) = .ok group →
      ∀ peer ∈ group.zipIdx, HearsPut P s (store.net (computeAddress P content)) content proof peer

/-- The groups that the stores find. -/
def MerkleStoreTurn.Finds (store : MerkleStoreTurn) (address : XorName) (group : List PeerId) : Prop :=
  (store.net address).closeGroupPeers client address = .ok group

/-! ## The waves -/

section Waves

variable {P C rewards s client} {contents : Set Bytes} {found : XorName → List PeerId → Prop}
  {turn : Turn} {content : Bytes} {address : XorName}

/-- A chunk of the upload whose quotes are of peers of a group that was found for it. -/
structure QuotedOf (P : Primitives) (contents : Set Bytes) (found : XorName → List PeerId → Prop)
    (content : Bytes) (address : XorName) (peers : List PeerId) : Prop where
  mem : content ∈ contents
  address : address = computeAddress P content
  nodup : peers.Nodup
  group : ∃ group, found (computeAddress P content) group ∧ peers ⊆ group.take closeGroupSize

/-- What is prepared is quoted, and what is found stored is durable. -/
theorem prepared_or_durable (hstarted : Swarm.Started P C rewards s) (hmem : content ∈ contents)
    {net : Network} {chain : Chain} {order : Unordered QuoteResult}
    (hears : HearsQuotes P C rewards s client net content)
    (hfound : ∀ group, net.closeGroupPeers client (computeAddress P content) = .ok group →
      found (computeAddress P content) group) {result : Option PreparedChunk}
    (h : prepareChunkPayment P C client net chain order content = .ok result) :
    (∃ chunk, result = some chunk ∧ chunk.address = computeAddress P content ∧
        QuotedOf P contents found chunk.content chunk.address chunk.quotedPeers) ∨
      result = none ∧ Durable P C rewards s found (computeAddress P content) := by
  unfold prepareChunkPayment at h
  split at h
  · rename_i quotes hquotes
    obtain ⟨r, -, h⟩ := bind_eq_ok.1 h
    obtain rfl := Except.ok.inj h
    obtain ⟨group, hgroup, hnodup, hsubset⟩ := quoted_of_getStoreQuotes hears.distinct hquotes
    exact .inl ⟨_, rfl, rfl, hmem, rfl, hnodup, group, hfound group hgroup, hsubset⟩
  · rename_i hstored
    obtain rfl := Except.ok.inj h
    obtain ⟨group, hgroup, hmajority⟩ :=
      onMajority_of_getStoreQuotes hstarted hears.distinct hears.quotes hstored
    exact .inr ⟨rfl, group, hfound group hgroup, hmajority⟩
  · cases h

theorem quotedOf_of_batchPay {chain : Chain} {prepared : List PreparedChunk} {paid : List PaidChunk}
    (hprepared : ∀ c ∈ prepared, QuotedOf P contents found c.content c.address c.quotedPeers)
    (h : batchPay C client chain prepared = .ok paid) :
    (∀ c ∈ paid, QuotedOf P contents found c.content c.address c.quotedPeers) ∧
      paid.map PaidChunk.address = prepared.map PreparedChunk.address := by
  refine ⟨fun c hc => ?_, (batchPay_eq_ok (fun c hc => (hprepared c hc).address) h).1⟩
  unfold batchPay at h
  split_ifs at h
  · obtain rfl := Except.ok.inj h
    cases hc
  · obtain ⟨_, -, h⟩ := bind_eq_ok.1 h
    obtain ⟨txs, -, h⟩ := bind_eq_ok.1 h
    obtain ⟨chunk, hchunk, hpaid⟩ := ok_of_mem_result (mapM_eq_ok.1 h) hc
    simp only [buildPaidChunk, bind_eq_ok] at hpaid
    obtain ⟨_, -, _, -, hpaid⟩ := hpaid
    obtain rfl := Except.ok.inj hpaid
    exact hprepared chunk hchunk

theorem durable_of_storeChunk (hstarted : Swarm.Started P C rewards s) {net : Network}
    {order : ℕ → Unordered (PeerId × ℕ)} {chunk : PaidChunk} {a : XorName}
    (hears : ∀ peer ∈ chunk.quotedPeers.zipIdx, HearsPut P s net chunk.content chunk.proofBytes peer)
    (hquoted : QuotedOf P contents found chunk.content chunk.address chunk.quotedPeers)
    (h : storeChunk P C client net order chunk = .ok a) :
    Durable P C rewards s found chunk.address := by
  obtain ⟨group, hfound, hsubset⟩ := hquoted.group
  rw [hquoted.address]
  refine ⟨group, hfound, ?_⟩
  rcases hput : chunkPutToCloseGroup P C client net order (turnsOf chunk.quotedPeers) chunk.content
    chunk.proofBytes chunk.quotedPeers with ⟨progress, _ | r⟩
  · rw [storeChunk, hput] at h
    cases h
  · rw [storeChunk, hput] at h
    obtain rfl : r = .ok a := h
    exact onMajority_of_chunkPutToCloseGroup hstarted hears hquoted.nodup hsubset hput

/-- What is pending is quoted, and what else is gone is durable. -/
structure Landing (P : Primitives) (C : ClientEvm) (rewards : PeerId → AntNode.RewardsAddress)
    (s : Swarm) (contents : Set Bytes) (found : XorName → List PeerId → Prop) (gone : List Bytes)
    (pending : List PaidChunk) : Prop where
  quoted : ∀ c ∈ pending, QuotedOf P contents found c.content c.address c.quotedPeers
  landed : ∀ content ∈ gone, Durable P C rewards s found (computeAddress P content) ∨
    computeAddress P content ∈ pending.map PaidChunk.address

/-- Once the pending wave is stored, all that is gone is durable. -/
theorem Landing.durable {gone : List Bytes} {pending : List PaidChunk}
    (h : Landing P C rewards s contents found gone pending)
    (hstored : ∀ c ∈ pending, Durable P C rewards s found c.address) :
    ∀ content ∈ gone, Durable P C rewards s found (computeAddress P content) := by
  intro content hcontent
  rcases h.landed content hcontent with hdone | hpending
  · exact hdone
  · obtain ⟨c, hc, haddress⟩ := List.mem_map.1 hpending
    rw [← haddress]
    exact hstored c hc

open Act

theorem holds_ofExcept_bind {α β : Type} {x : Except Error α} {f : α → Upload β} {log : List Event}
    {Q : β → List Event → Prop} (h : ∀ a, x = .ok a → Holds (f a) log Q fun _ _ => True) :
    Holds (ofExcept x >>= f) log Q fun _ _ => True := by
  cases x with
  | ok a => exact h a rfl
  | error e => exact holds_throw trivial

theorem holds_storePending (hstarted : Swarm.Started P C rewards s)
    (hears : turn.Hears P C rewards s client contents) {pending : Option (List PaidChunk)}
    (hquoted : ∀ c ∈ pending.getD [], QuotedOf P contents found c.content c.address c.quotedPeers)
    (log : List Event) :
    Holds (storePending P C client turn pending) log
      (fun result _ => ∀ stored, result = .ok stored → ∀ c ∈ pending.getD [],
        Durable P C rewards s found c.address) fun _ _ => True := by
  cases pending with
  | none => exact holds_pure fun _ _ => List.forall_mem_nil _
  | some paid =>
    refine holds_modify_bind (holds_pure fun stored hstored c hc => ?_)
    have hmem : (c.address, storeChunk P C client (turn.putNet c) (turn.putOrder c) c) ∈
        storeResults P C client turn paid := by
      rw [storeResults, Unordered.mem_order]
      exact List.mem_map_of_mem hc
    obtain ⟨a, ha⟩ := ok_of_mem (mapM_eq_ok.1 hstored) hmem
    exact durable_of_storeChunk hstarted (hears.puts c (hquoted c hc).mem) (hquoted c hc) ha

/-- A wave that has been prepared. -/
theorem landing_of_splitPrepared (hstarted : Swarm.Started P C rewards s)
    (hears : turn.Hears P C rewards s client contents)
    (hfound : ∀ a group, turn.Finds P client contents a group → found a group) {wave : List Bytes}
    (hwave : ∀ content ∈ wave, content ∈ contents) {prepared : List PreparedChunk}
    {alreadyStored : List XorName}
    (h : splitPrepared (prepareResults P C client turn wave) = .ok (prepared, alreadyStored)) :
    (∀ c ∈ prepared, QuotedOf P contents found c.content c.address c.quotedPeers) ∧
      ∀ content ∈ wave, Durable P C rewards s found (computeAddress P content) ∨
        computeAddress P content ∈ prepared.map PreparedChunk.address := by
  have hmem : ∀ content ∈ wave, ∀ result, prepareChunkPayment P C client (turn.quoteNet content)
      (turn.market content) (turn.quoteOrder content) content = .ok result →
      (∃ chunk, result = some chunk ∧ chunk.address = computeAddress P content ∧
        QuotedOf P contents found chunk.content chunk.address chunk.quotedPeers) ∨
      result = none ∧ Durable P C rewards s found (computeAddress P content) := by
    intro content hcontent result hresult
    have hknown := hwave content hcontent
    exact prepared_or_durable hstarted hknown (hears.quotes content hknown)
      (fun group hgroup => hfound _ group ⟨content, hknown, rfl, hgroup⟩) hresult
  rcases splitPrepared_cases (prepareResults P C client turn wave) with
    ⟨e, herror, -⟩ | ⟨prepared', stored', hok, hall, rfl, -⟩
  · cases h.symm.trans herror
  obtain ⟨rfl, rfl⟩ := Prod.mk.inj (Except.ok.inj (h.symm.trans hok))
  constructor
  · intro c hc
    obtain ⟨r, hr, hsome⟩ := List.mem_filterMap.1 hc
    obtain ⟨result, hresult⟩ := hall r hr
    have hfound : result = some c := by simpa [hresult, Except.toOption] using hsome
    rw [prepareResults, Unordered.mem_order] at hr
    obtain ⟨content, hcontent, rfl⟩ := List.mem_map.1 hr
    rcases hmem content hcontent result hresult with ⟨chunk, hchunk, -, hquoted⟩ | ⟨hnone, -⟩
    · obtain rfl := Option.some.inj (hchunk.symm.trans hfound)
      exact hquoted
    · cases hnone.symm.trans hfound
  · intro content hcontent
    have hr : (computeAddress P content, prepareChunkPayment P C client (turn.quoteNet content)
        (turn.market content) (turn.quoteOrder content) content) ∈
          prepareResults P C client turn wave := by
      rw [prepareResults, Unordered.mem_order]
      exact List.mem_map_of_mem hcontent
    obtain ⟨result, hresult⟩ := hall _ hr
    rcases hmem content hcontent result hresult with ⟨chunk, hchunk, haddress, -⟩ | ⟨-, hdurable⟩
    · refine .inr (List.mem_map.2 ⟨chunk, List.mem_filterMap.2 ⟨_, hr, ?_⟩, haddress⟩)
      simp only at hresult
      rw [hresult, hchunk]
      rfl
    · exact .inl hdurable

/-- One turn: what was pending is stored, and what is paid for is pending. -/
theorem Landing.uploadWave (hstarted : Swarm.Started P C rewards s) {gone wave : List Bytes}
    {t : Option (List PaidChunk) × List XorName}
    (h : Landing P C rewards s contents found gone (t.1.getD []))
    (hears : turn.Hears P C rewards s client contents)
    (hfound : ∀ a group, turn.Finds P client contents a group → found a group)
    (hwave : ∀ content ∈ wave, content ∈ contents) (log : List Event) :
    Holds (uploadWave P C client t (turn, wave)) log
      (fun t' _ => Landing P C rewards s contents found (gone ++ wave) (t'.1.getD []))
      fun _ _ => True := by
  have hprepare : Holds (prepareWave P C client turn wave) log
      (fun r _ => r = splitPrepared (prepareResults P C client turn wave)) fun _ _ => True :=
    holds_modify_bind (holds_pure rfl)
  unfold AntClient.uploadWave
  refine holds_bind hprepare fun prepareResult log hresult => ?_
  refine holds_bind (holds_storePending hstarted hears h.quoted log) fun storeResult log hstored => ?_
  refine holds_ofExcept_bind fun stored hok => holds_ofExcept_bind ?_
  rintro ⟨prepared, alreadyStored⟩ hprepared
  obtain ⟨hquoted, hlanded⟩ :=
    landing_of_splitPrepared hstarted hears hfound hwave (hresult.symm.trans hprepared)
  have hgone := h.durable (hstored stored hok)
  dsimp only
  split_ifs with hempty
  · obtain rfl := List.isEmpty_iff.1 hempty
    refine holds_pure ⟨List.forall_mem_nil _, fun content hcontent => .inl ?_⟩
    rcases List.mem_append.1 hcontent with hcontent | hcontent
    · exact hgone content hcontent
    · exact (hlanded content hcontent).resolve_right List.not_mem_nil
  · have hpay : Holds (payWave C client turn prepared) log (fun paid _ =>
        (∀ c ∈ paid, QuotedOf P contents found c.content c.address c.quotedPeers) ∧
          paid.map PaidChunk.address = prepared.map PreparedChunk.address) fun _ _ => True :=
      holds_modify_bind (holds_modify_bind
        (holds_ofExcept (fun paid hok => quotedOf_of_batchPay hquoted hok) fun _ _ => trivial))
    refine holds_bind hpay fun paid log hpaid => holds_pure ⟨hpaid.1, fun content hcontent => ?_⟩
    rcases List.mem_append.1 hcontent with hcontent | hcontent
    · exact .inl (hgone content hcontent)
    · rw [Option.getD_some, hpaid.2]
      exact hlanded content hcontent

/-- **An upload in waves** that returns leaves each of its chunks with a majority of a group. -/
theorem holds_batchUploadChunks (hstarted : Swarm.Started P C rewards s) (waves : WaveSplit)
    {turns : ℕ → Turn} (hears : ∀ i, (turns i).Hears P C rewards s client contents)
    (hfound : ∀ i a group, (turns i).Finds P client contents a group → found a group)
    {chunks : List Bytes} (hchunks : ∀ content ∈ chunks, content ∈ contents) (log : List Event) :
    Holds (batchUploadChunks P C client waves turns chunks) log
      (fun _ _ => ∀ content ∈ chunks, Durable P C rewards s found (computeAddress P content))
      fun _ _ => True := by
  unfold batchUploadChunks
  split_ifs with hempty
  · rw [List.isEmpty_iff.1 hempty]
    exact holds_pure (List.forall_mem_nil _)
  obtain ⟨hsub, hall⟩ := dedupChunks_spec (P := P) chunks
  generalize dedupChunks P chunks = deduped at hsub hall ⊢
  have hwaves : ((waves.split deduped.1).mapIdx fun i wave =>
      (turns i, wave)).flatMap Prod.snd = deduped.1 := by
    conv_rhs => rw [← waves.flatten_split deduped.1]
    rw [List.flatMap_def, List.mapIdx_eq_zipIdx_map, List.map_map]
    exact congrArg List.flatten (List.zipIdx_map_fst _ _)
  refine holds_bind (holds_foldlM (I := fun gone t _ =>
    Landing P C rewards s contents found (gone.flatMap Prod.snd) (t.1.getD [])) ?_ _ [] _ _
      (List.nil_append _) ⟨List.forall_mem_nil _, List.forall_mem_nil _⟩) ?_
  · rintro gone ⟨turn, wave⟩ rest t log hwhole hI
    have hmem : (turn, wave) ∈ (waves.split deduped.1).mapIdx
        fun i wave => (turns i, wave) := hwhole ▸ List.mem_append_right _ List.mem_cons_self
    obtain ⟨i, hi, heq⟩ := List.mem_mapIdx.1 hmem
    obtain ⟨rfl, rfl⟩ := Prod.mk.inj heq
    rw [List.flatMap_append, List.flatMap_singleton]
    refine hI.uploadWave hstarted (hears i) (hfound i) (fun content hcontent => ?_) log
    refine hchunks content (hsub ?_)
    rw [← waves.flatten_split deduped.1]
    exact List.mem_flatten.2 ⟨_, List.getElem_mem hi, hcontent⟩
  · rintro ⟨pendingStore, allAddresses⟩ log hI
    rw [hwaves] at hI
    refine holds_bind (holds_storePending hstarted (hears _) hI.quoted log)
      fun storeResult log hstored => ?_
    refine holds_ofExcept_bind fun stored hok => holds_pure fun content hcontent => ?_
    obtain ⟨content', hcontent', heq⟩ := hall content hcontent
    rw [← heq]
    exact hI.durable (hstored stored hok) content' hcontent'

end Waves

/-! ## The stores with merkle proofs -/

section Stores

variable {P rewards s client} {C : MerkleEvm} {contents : Set Bytes}
  {found : XorName → List PeerId → Prop} {store : MerkleStoreTurn}

theorem length_closeGroupPeers {net : Network} {address : XorName} {peers : List PeerId}
    (h : net.closeGroupPeers client address = .ok peers) : peers.length ≤ client.closeGroupSize := by
  obtain ⟨found, hfound, h⟩ := bind_eq_ok.1 h
  obtain ⟨closest, -, hfound⟩ := bind_eq_ok.1 hfound
  obtain rfl := Except.ok.inj hfound
  split_ifs at h
  obtain rfl := Except.ok.inj h
  exact List.length_take_le _ _

/-- What is stored with merkle proofs is durable, if the close group is one of five. -/
theorem durable_of_merkleUploadChunks (hstarted : Swarm.Started P C.toClientEvm rewards s)
    (hsize : client.closeGroupSize ≤ closeGroupSize) {batchResult : MerkleBatchPaymentResult}
    (hears : store.Hears P s client contents (.ofList batchResult.proofs))
    (hfound : ∀ a group, store.Finds client a group → found a group) {chunkContents : List Bytes}
    (hcontents : ∀ content ∈ chunkContents, content ∈ contents) {n : ℕ}
    (h : merkleUploadChunks C client P store chunkContents (chunkContents.map (computeAddress P))
      batchResult = .ok n) :
    ∀ content ∈ chunkContents, Durable P C.toClientEvm rewards s found (computeAddress P content) := by
  intro content hcontent
  have hmem := hcontents content hcontent
  obtain ⟨stored, hstored, -⟩ := bind_eq_ok.1 h
  have hzip : chunkContents.zip (chunkContents.map (computeAddress P)) =
      chunkContents.map fun c => (c, computeAddress P c) := by
    simpa using List.zip_map' (f := id) (g := computeAddress P) (l := chunkContents)
  have hzipped : (content, computeAddress P content) ∈
      chunkContents.zip (chunkContents.map (computeAddress P)) :=
    hzip ▸ List.mem_map_of_mem hcontent
  obtain ⟨a, ha⟩ := ok_of_mem (mapM_eq_ok.1 hstored)
    ((store.storeOrder.mem_order).2 (List.mem_map_of_mem hzipped))
  simp only [id_eq, storeWithMerkleProof, bind_eq_ok] at ha
  obtain ⟨proof, hproof, peers, hpeers, hput⟩ := ha
  have hgroup : peers ⊆ peers.take closeGroupSize := by
    rw [List.take_of_length_le ((length_closeGroupPeers hpeers).trans hsize)]
    exact List.Subset.refl _
  exact durable_of_storeChunk hstarted
    (hears.puts content hmem proof (okOr_eq_ok.1 hproof) peers hpeers)
    ⟨hmem, rfl, nodup_closeGroupPeers (hears.distinct content hmem) hpeers, peers,
      hfound (computeAddress P content) peers hpeers, hgroup⟩ hput

end Stores

/-! ## The modes -/

/-- The groups that an upload finds, or would find in the turns that it does not come to. -/
def UploadTurn.Finds (contents : Set Bytes) (u : UploadTurn) (address : XorName)
    (group : List PeerId) : Prop :=
  (∃ n i, (u.wave n i).Finds P client contents address group) ∨
    ∃ n, (u.store n).Finds client address group

/-- What an upload of these chunks hears, with what it may have paid for them. -/
structure UploadTurn.Hears (contents : Set Bytes) (paid : Set MerkleBatchPaymentResult)
    (u : UploadTurn) : Prop where
  waves : ∀ n i, (u.wave n i).Hears P C rewards s client contents
  stores : ∀ n, ∀ batchResult ∈ paid,
    (u.store n).Hears P s client contents (.ofList batchResult.proofs)

/-- What a merkle payment for these addresses can return. -/
def merklePayments (C : MerkleEvm) (client : Client) (addresses : List XorName) (dataSize : UInt64)
    (merkle : ℕ → MerkleTurn) : Set MerkleBatchPaymentResult :=
  {batchResult | ∃ log log',
    payForMerkleBatch C client addresses dataTypeChunk dataSize merkle log =
      some (.ok batchResult, log')}

section Modes

open Act

variable {P rewards s client} {C : MerkleEvm} {mode : PaymentMode} {merkle : ℕ → MerkleTurn}
  {u : UploadTurn} {contents : Set Bytes} {log : List Event}

/-- The payment of a single tree: what it returns does not hang on what was logged before. -/
theorem mem_merklePayments {addresses : List XorName} {dataSize : UInt64}
    {batchResult : MerkleBatchPaymentResult} (hlen : addresses.length ≤ C.maxLeaves)
    (h : batchResult ∈ merklePayments C client addresses dataSize merkle) :
    ∃ winnerPoolHash pools,
      payMerkleTree C client (merkle 0) addresses dataTypeChunk dataSize = .ok (winnerPoolHash, pools) ∧
      merkleProofs C addresses winnerPoolHash pools = .ok batchResult := by
  obtain ⟨log, log', h⟩ := h
  have hholds : Holds (payForMerkleBatch C client addresses dataTypeChunk dataSize merkle) log
      (fun r _ => ∃ winnerPoolHash pools, payMerkleTree C client (merkle 0) addresses dataTypeChunk
          dataSize = .ok (winnerPoolHash, pools) ∧
        merkleProofs C addresses winnerPoolHash pools = .ok r) fun _ _ => True := by
    rw [payForMerkleBatch, if_neg (not_lt.2 hlen)]
    split_ifs
    · exact holds_throw trivial
    · refine holds_ofExcept_bind ?_
      rintro ⟨winnerPoolHash, pools⟩ hpaid
      exact holds_modify_bind
        (holds_ofExcept (fun r hr => ⟨winnerPoolHash, pools, hpaid, hr⟩) fun _ _ => trivial)
  exact hholds.1 batchResult log' h

theorem holds_payOrFallBack {α : Type} {pay : Upload MerkleBatchPaymentResult} {fallback : Upload α}
    {upload : MerkleBatchPaymentResult → Upload α} {Q : α → Prop}
    (hfallback : ∀ log, Holds fallback log (fun a _ => Q a) fun _ _ => True)
    (hupload : ∀ batchResult log', pay log = some (.ok batchResult, log') →
      Holds (upload batchResult) log' (fun a _ => Q a) fun _ _ => True) :
    Holds (payOrFallBack mode pay fallback upload) log (fun a _ => Q a) fun _ _ => True := by
  refine ⟨fun a log' h => ?_, fun _ _ _ => trivial⟩
  simp only [payOrFallBack, ExceptT.mk] at h
  split at h
  · cases h
  · exact (hupload _ _ ‹_›).1 a log' h
  · split_ifs at h
    · exact (hfallback _).1 a log' h
    · cases h
  · cases h

variable {found : XorName → List PeerId → Prop}

theorem holds_dataUploadSingle (hstarted : Swarm.Started P C.toClientEvm rewards s)
    (hears : ∀ n i, (u.wave n i).Hears P C.toClientEvm rewards s client contents)
    (hfound : ∀ n i a group, (u.wave n i).Finds P client contents a group → found a group)
    {chunkContents : List Bytes} (hcontents : ∀ content ∈ chunkContents, content ∈ contents)
    (map : DataMap) (log : List Event) :
    Holds (dataUploadSingle P C client u map chunkContents) log
      (fun r _ => r.dataMap = map ∧ ∀ content ∈ chunkContents,
        Durable P C.toClientEvm rewards s found (computeAddress P content)) fun _ _ => True :=
  holds_bind (holds_batchUploadChunks hstarted paymentWaves (hears 0) (hfound 0) hcontents log)
    fun _ _ h => holds_pure ⟨rfl, h⟩

/-- **What an upload of data leaves**: once it has returned, in whatever mode, each chunk of the map
    is with a majority of a group that it has found for it, for good. -/
theorem dataUploadWithMode_durable (hstarted : Swarm.Started P C.toClientEvm rewards s)
    (hsize : client.closeGroupSize ≤ closeGroupSize) {map : DataMap} {chunkContents : List Bytes}
    (hears : u.Hears P C.toClientEvm rewards s client {c | c ∈ chunkContents}
      (merklePayments C client (chunkContents.map (computeAddress P)) (avgSize chunkContents) merkle))
    {r : DataUploadResult} {log' : List Event}
    (h : dataUploadWithMode P C client mode merkle u (.ok (map, chunkContents)) log =
      some (.ok r, log')) :
    r.dataMap = map ∧ ∀ content ∈ chunkContents, Durable P C.toClientEvm rewards s
      (u.Finds P client {c | c ∈ chunkContents}) (computeAddress P content) := by
  have hsingle := holds_dataUploadSingle hstarted hears.waves
    (fun n i a group hf => (show u.Finds P client _ a group from .inl ⟨n, i, hf⟩))
    (fun content hcontent => hcontent) map
  have hholds : Holds (dataUploadWithMode P C client mode merkle u (.ok (map, chunkContents))) log
      (fun r _ => r.dataMap = map ∧ ∀ content ∈ chunkContents, Durable P C.toClientEvm rewards s
        (u.Finds P client {c | c ∈ chunkContents}) (computeAddress P content)) fun _ _ => True := by
    unfold dataUploadWithMode
    refine holds_ofExcept_bind ?_
    rintro ⟨map', contents'⟩ hencrypted
    obtain ⟨rfl, rfl⟩ := Prod.mk.inj (Except.ok.inj hencrypted)
    dsimp only
    split_ifs
    · refine holds_payOrFallBack hsingle fun batchResult log' hpaid => ?_
      refine holds_ofExcept_bind fun n hn => holds_pure ⟨rfl, ?_⟩
      exact durable_of_merkleUploadChunks hstarted hsize (hears.stores 0 _ ⟨log, log', hpaid⟩)
        (fun a group hf => .inr ⟨0, hf⟩) (fun content hcontent => hcontent) hn
    · exact hsingle log
  exact hholds.1 r log' h

/-! ## From a file -/

variable {spill : ChunkSpill} {readError : XorName → Option String}

theorem files_of_readChunk {a : XorName} {content : Bytes}
    (h : spill.readChunk readError a = .ok content) : spill.files a = some content := by
  unfold ChunkSpill.readChunk at h
  split at h
  · cases h
  · exact okOr_eq_ok.1 h

/-- A wave with its addresses is read back as it was spilled. -/
theorem readWave_eq_ok (hspill : spill.Holds P) {wave : List XorName} (hwave : wave ⊆ spill.addresses)
    {read : List (Bytes × XorName)} (h : spill.readWave readError wave = .ok read) :
    read.map Prod.snd = wave ∧ (read.map Prod.fst).map (computeAddress P) = wave ∧
      ∀ p ∈ read, spill.files p.2 = some p.1 := by
  rw [ChunkSpill.readWave, mapM_eq_ok] at h
  induction h with
  | nil => exact ⟨rfl, rfl, List.forall_mem_nil _⟩
  | @cons a p wave read hp _ ih =>
    obtain ⟨content, hcontent, hp⟩ := bind_eq_ok.1 hp
    obtain rfl := Except.ok.inj hp
    have hfile := files_of_readChunk hcontent
    obtain ⟨content', hfile', haddress⟩ := hspill.files a (hwave List.mem_cons_self)
    obtain rfl := Option.some.inj (hfile.symm.trans hfile')
    obtain ⟨hsnd, hfst, hfiles⟩ := ih (List.Subset.trans (List.subset_cons_self ..) hwave)
    refine ⟨by rw [List.map_cons, hsnd], by rw [List.map_cons, List.map_cons, hfst, haddress], ?_⟩
    intro q hq
    rcases List.mem_cons.1 hq with rfl | hq
    · exact hfile
    · exact hfiles q hq

theorem flatMap_waves (spill : ChunkSpill) :
    spill.waves.zipIdx.flatMap Prod.fst = spill.addresses := by
  rw [List.flatMap_def, List.zipIdx_map_fst]
  exact flatten_chunked (by decide) _

theorem holds_uploadWavesSingle (hstarted : Swarm.Started P C.toClientEvm rewards s)
    (hears : ∀ n i, (u.wave n i).Hears P C.toClientEvm rewards s client contents)
    (hfound : ∀ n i a group, (u.wave n i).Finds P client contents a group → found a group)
    (hspill : spill.Holds P) (hcontents : ∀ a content, spill.files a = some content → content ∈ contents)
    (log : List Event) :
    Holds (uploadWavesSingle P C client u spill) log
      (fun _ _ => ∀ a ∈ spill.addresses, Durable P C.toClientEvm rewards s found a)
      fun _ _ => True := by
  have hwaves := flatMap_waves spill
  have hloop : Holds (uploadWavesSingle P C client u spill) log
      (fun _ _ => ∀ a ∈ spill.waves.zipIdx.flatMap Prod.fst,
        Durable P C.toClientEvm rewards s found a) fun _ _ => True := by
    refine holds_foldlM (I := fun gone _ _ => ∀ a ∈ gone.flatMap Prod.fst,
      Durable P C.toClientEvm rewards s found a) ?_ _ [] _ _ (List.nil_append _) (List.forall_mem_nil _)
    rintro gone ⟨wave, n⟩ rest total log hwhole hI
    have hsub : wave ⊆ spill.addresses := by
      intro a ha
      rw [← hwaves, ← hwhole]
      exact List.mem_flatMap.2 ⟨(wave, n), by simp, ha⟩
    refine holds_ofExcept_bind fun waveData hread => ?_
    have hnames : waveData.map (computeAddress P) = wave := hspill.read hsub hread
    refine holds_bind (holds_batchUploadChunks hstarted paymentWaves (hears n) (hfound n)
      (fun content hcontent => ?_) log) fun _ _ hdurable => holds_pure fun a ha => ?_
    · obtain ⟨a, -, ha⟩ := ok_of_mem_result (mapM_eq_ok.1 hread) hcontent
      exact hcontents a content (files_of_readChunk ha)
    · rw [List.flatMap_append, List.flatMap_singleton] at ha
      rcases List.mem_append.1 ha with ha | ha
      · exact hI a ha
      · simp only at ha
        rw [← hnames] at ha
        obtain ⟨content, hcontent, rfl⟩ := List.mem_map.1 ha
        exact hdurable content hcontent
  rwa [hwaves] at hloop

theorem durable_of_uploadWavesMerkle (hstarted : Swarm.Started P C.toClientEvm rewards s)
    (hsize : client.closeGroupSize ≤ closeGroupSize) {batchResult : MerkleBatchPaymentResult}
    (hears : ∀ n, (u.store n).Hears P s client contents (.ofList batchResult.proofs))
    (hfound : ∀ n a group, (u.store n).Finds client a group → found a group)
    (hspill : spill.Holds P) (hcontents : ∀ a content, spill.files a = some content → content ∈ contents)
    {n : ℕ} (h : uploadWavesMerkle P C client u spill batchResult = .ok n) :
    ∀ a ∈ spill.addresses, Durable P C.toClientEvm rewards s found a := by
  have hloop : ∀ (waves : List (List XorName × ℕ)) (total : ℕ),
      waves.flatMap Prod.fst ⊆ spill.addresses →
      waves.foldlM (uploadWaveMerkle P C client u spill batchResult) total = .ok n →
      ∀ a ∈ waves.flatMap Prod.fst, Durable P C.toClientEvm rewards s found a := by
    intro waves
    induction waves with
    | nil => exact fun _ _ _ => List.forall_mem_nil _
    | cons w waves ih =>
      intro total hsub hfold a ha
      rw [List.foldlM_cons] at hfold
      obtain ⟨total', hwave, hrest⟩ := bind_eq_ok.1 hfold
      rw [List.flatMap_cons] at hsub ha
      obtain ⟨hhead, htail⟩ := List.append_subset.1 hsub
      rcases List.mem_append.1 ha with ha | ha
      · obtain ⟨read, hread, hwave⟩ := bind_eq_ok.1 hwave
        obtain ⟨stored, hstored, -⟩ := bind_eq_ok.1 hwave
        obtain ⟨hsnd, hfst, hfiles⟩ := readWave_eq_ok hspill hhead hread
        rw [hsnd, ← hfst] at hstored
        rw [← hfst] at ha
        obtain ⟨content, hcontent, rfl⟩ := List.mem_map.1 ha
        refine durable_of_merkleUploadChunks hstarted hsize (hears w.2) (hfound w.2) ?_ hstored
          content hcontent
        intro content hcontent
        obtain ⟨p, hp, rfl⟩ := List.mem_map.1 hcontent
        exact hcontents p.2 p.1 (hfiles p hp)
      · exact ih total' htail hrest a ha
  have hall := hloop _ 0 (by rw [flatMap_waves]; exact List.Subset.refl _) h
  rwa [flatMap_waves] at hall

/-- **What an upload of a file leaves**: once it has returned, in whatever mode, each chunk that was
    spilled is with a majority of a group that was found for it, for good. -/
theorem fileUploadWithMode_durable (hstarted : Swarm.Started P C.toClientEvm rewards s)
    (hsize : client.closeGroupSize ≤ closeGroupSize) {writeError : XorName → Option String}
    {encryption : FileEncryption} {map : DataMap}
    (hspilled : encryptFileToSpill P writeError encryption = .ok (spill, map))
    (hears : u.Hears P C.toClientEvm rewards s client {c | ∃ a, spill.files a = some c}
      (merklePayments C client spill.addresses spill.avgChunkSize merkle))
    {r : FileUploadResult} {log' : List Event}
    (h : fileUploadWithMode P C client mode merkle u (.ok (spill, map)) log = some (.ok r, log')) :
    r.dataMap = map ∧ ∀ a ∈ spill.addresses, Durable P C.toClientEvm rewards s
      (u.Finds P client {c | ∃ a, spill.files a = some c}) a := by
  have hspill := encryptFileToSpill_eq_ok hspilled
  have hsingle : ∀ log, Holds (fileUploadSingle P C client u map spill) log
      (fun r _ => r.dataMap = map ∧ ∀ a ∈ spill.addresses, Durable P C.toClientEvm rewards s
        (u.Finds P client {c | ∃ a, spill.files a = some c}) a) fun _ _ => True := fun log =>
    holds_bind (holds_uploadWavesSingle hstarted hears.waves (fun n i _ _ hf => .inl ⟨n, i, hf⟩)
      hspill (fun a _ hfile => ⟨a, hfile⟩) log) fun _ _ h => holds_pure ⟨rfl, h⟩
  have hholds : Holds (fileUploadWithMode P C client mode merkle u (.ok (spill, map))) log
      (fun r _ => r.dataMap = map ∧ ∀ a ∈ spill.addresses, Durable P C.toClientEvm rewards s
        (u.Finds P client {c | ∃ a, spill.files a = some c}) a) fun _ _ => True := by
    unfold fileUploadWithMode
    refine holds_ofExcept_bind ?_
    rintro ⟨spill', map'⟩ hencrypted
    obtain ⟨rfl, rfl⟩ := Prod.mk.inj (Except.ok.inj hencrypted)
    dsimp only
    split_ifs
    · refine holds_payOrFallBack hsingle fun batchResult log' hpaid => ?_
      refine holds_ofExcept_bind fun n hn => holds_pure ⟨rfl, ?_⟩
      exact durable_of_uploadWavesMerkle hstarted hsize
        (fun n => hears.stores n _ ⟨log, log', hpaid⟩) (fun n _ _ hf => .inr ⟨n, hf⟩) hspill
        (fun a _ hfile => ⟨a, hfile⟩) hn
    · exact hsingle log
  exact hholds.1 r log' h

end Modes

/-! ## Two chunks, paid for in either way -/

section Example

def honestChunks : List Bytes := (List.range 2).map honestContent

def contentIndex (content : Bytes) : ℕ := (content.headD 0).toNat - 5

def durableEvm : MerkleEvm := { honestEvm, exampleMerkleEvm with }

def unansweredNet : Network :=
  { honestNet 0 with
    p2p := { (honestNet 0).p2p with
      findClosestNodes := fun _ _ => .error "not connected"
      events := fun _ => [.elapsed] } }

/-- The nodes quote for both chunks, and the first three store what has been paid for. -/
def writingTurn : Turn where
  quoteNet content := honestNet (contentIndex content)
  quoteOrder _ := .asStarted
  market _ := exampleChain
  prepareOrder := .asStarted
  wallet := exampleChain
  putNet chunk :=
    if chunk.quotedPeers = exampleNames ∧
        chunk.proofBytes = honestProof (contentIndex chunk.content) then
      storingNet (computeAddress clear chunk.content)
    else unansweredNet
  putOrder _ _ := .asStarted
  storeOrder := .asStarted

/-- Nobody is there for the stores with merkle proofs. -/
def writingUpload : UploadTurn where
  readError _ := none
  wave _ _ := writingTurn
  store _ := ⟨fun _ => unansweredNet, fun _ _ => .asStarted, .asStarted⟩

/-- Nobody is there for the waves. -/
def pooledUpload : UploadTurn where
  readError _ := none
  wave _ _ := { writingTurn with
    quoteNet := fun _ => unansweredNet
    putNet := fun _ => unansweredNet }
  store _ := ⟨storingNet, fun _ _ => .asStarted, .asStarted⟩

/-- Both chunks are put with their merkle proofs; the second finds the pool in the cache. -/
def pooledPuts : List NodeAction := pooledActions 0 0 (askPool 0) ++ pooledActions 1 1 []

def pooledSwarm : Swarm := swarmAfter pooledEvm.toEvm pooledPuts

def writtenMap : DataMap := ⟨[], none⟩

def writtenSpill : ChunkSpill where
  addresses := honestChunks.map (computeAddress clear)
  files := (Lookup.empty.insert (computeAddress clear (honestContent 0)) (honestContent 0)).insert
    (computeAddress clear (honestContent 1)) (honestContent 1)
  totalBytes := 2

theorem mem_honestChunks {content : Bytes} (h : content ∈ honestChunks) :
    ∃ k < 2, honestContent k = content := by
  obtain ⟨k, hk, rfl⟩ := List.mem_map.1 h
  exact ⟨k, List.mem_range.1 hk, rfl⟩

theorem contentIndex_honestContent : ∀ k < 2, contentIndex (honestContent k) = k := by decide

/-- What comes of the uploads paid for in waves. -/
theorem written_uploads :
    (∃ r ∈ (dataUploadWithMode clear durableEvm exampleClient .single exampleMerkle writingUpload
        (.ok (writtenMap, honestChunks)) []).bind fun r => r.1.toOption,
      r.chunksStored = 2 ∧ r.paymentModeUsed = .single) ∧
    ∃ r ∈ (fileUploadWithMode clear durableEvm exampleClient .single exampleMerkle writingUpload
        (.ok (writtenSpill, writtenMap)) []).bind fun r => r.1.toOption,
      r.chunksStored = 2 ∧ r.paymentModeUsed = .single := by decide +kernel

/-- What comes of those paid for by a tree. -/
theorem pooled_uploads :
    (∃ r ∈ (dataUploadWithMode clear pooledEvm exampleClient .merkle (fun _ => pooledTurn)
        pooledUpload (.ok (writtenMap, honestChunks)) []).bind fun r => r.1.toOption,
      r.chunksStored = 2 ∧ r.paymentModeUsed = .merkle) ∧
    ∃ r ∈ (fileUploadWithMode clear pooledEvm exampleClient .merkle (fun _ => pooledTurn)
        pooledUpload (.ok (writtenSpill, writtenMap)) []).bind fun r => r.1.toOption,
      r.chunksStored = 2 ∧ r.paymentModeUsed = .merkle := by decide +kernel

/-- What the nodes come to with the merkle proofs, and what the client has paid for. -/
theorem pooled_stores :
    ((∀ n < 3, (pooledPuts.foldlM (NodeState.step clear pooledEvm.toEvm (exampleAddress n))
        (.open roomyStorage exampleTracker)).isSome) ∧
      ∀ k < 2, ∀ n < 3,
        ⟨pooledPut k, .done (.success (computeAddress clear (honestContent k)))⟩ ∈
          (nodeAfter pooledEvm.toEvm pooledPuts n).puts) ∧
    ∃ paid ∈ (payMerkleTree pooledEvm exampleClient pooledTurn pooledAddresses dataTypeChunk
        1).toOption, ∃ r ∈ (merkleProofs pooledEvm pooledAddresses paid.1 paid.2).toOption,
      r.proofs = (List.range 2).map fun k =>
        (computeAddress clear (honestContent k), pooledProofBytes k) := by decide +kernel

theorem exists_of_mem_toOption {α : Type} {x : Option (Except Error α × List Event)} {Q : α → Prop}
    (h : ∃ a ∈ x.bind fun r => r.1.toOption, Q a) : ∃ a log, x = some (.ok a, log) ∧ Q a := by
  obtain ⟨a, ha, hQ⟩ := h
  obtain ⟨⟨result, log⟩, hr, ha⟩ := Option.bind_eq_some_iff.1 ha
  exact ⟨a, log, hr.trans (congrArg (fun e => some (e, log)) (eq_ok_of_toOption ha)), hQ⟩

theorem started_durableEvm :
    Swarm.Started clear durableEvm.toClientEvm exampleRewards writtenSwarm := started_writtenSwarm

theorem started_pooledSwarm :
    Swarm.Started clear pooledEvm.toClientEvm exampleRewards pooledSwarm := by
  refine started_swarmAfter (C := pooledEvm.toClientEvm) ?_ pooled_stores.1.1
  simp [pooledPuts, pooledActions, askPool, NodeState.Kept]

/-- An answer is never heard where nobody is. -/
theorem hearsPut_unansweredNet {s : Swarm} {content proof : Bytes} (peer : PeerId × ℕ) :
    HearsPut clear s unansweredNet content proof peer :=
  fun _ hresponse => absurd hresponse List.not_mem_nil

theorem hears_writingTurn {contents : Set Bytes} (hcontents : ∀ content ∈ contents,
    content ∈ honestChunks) : writingTurn.Hears clear durableEvm.toClientEvm exampleRewards
      writtenSwarm exampleClient contents := by
  refine ⟨fun content hcontent => ?_, fun chunk hchunk peer hpeer => ?_⟩
  · obtain ⟨k, hk, rfl⟩ := mem_honestChunks (hcontents content hcontent)
    have hnet : writingTurn.quoteNet (honestContent k) = honestNet k :=
      congrArg honestNet (contentIndex_honestContent k hk)
    rw [hnet]
    refine ⟨?_, fun group hgroup => ?_⟩
    · rintro peers ⟨⟩
      exact nodup_exampleNames
    · obtain rfl := Except.ok.inj ((closeGroupPeers_honestNet hk).symm.trans hgroup)
      exact hearsQuote_honestNet hk
  · obtain ⟨k, hk, hcontent⟩ := mem_honestChunks (hcontents _ hchunk)
    by_cases hpays : chunk.quotedPeers = exampleNames ∧
        chunk.proofBytes = honestProof (contentIndex chunk.content)
    · have hnet : writingTurn.putNet chunk = storingNet (computeAddress clear chunk.content) :=
        if_pos hpays
      rw [hpays.1] at hpeer
      rw [hnet, hpays.2, ← hcontent, contentIndex_honestContent k hk]
      exact hearsPut_writtenSwarm hk peer hpeer
    · have hnet : writingTurn.putNet chunk = unansweredNet := if_neg hpays
      rw [hnet]
      exact hearsPut_unansweredNet peer

theorem hears_writingUpload {contents : Set Bytes} (hcontents : ∀ content ∈ contents,
    content ∈ honestChunks) (paid : Set MerkleBatchPaymentResult) :
    writingUpload.Hears clear durableEvm.toClientEvm exampleRewards writtenSwarm exampleClient
      contents paid := by
  refine ⟨fun _ _ => hears_writingTurn hcontents, fun _ _ _ => ⟨?_, ?_⟩⟩
  · rintro _ _ peers ⟨⟩
  · rintro _ _ _ _ group ⟨⟩

theorem hears_pooledUpload {contents : Set Bytes} (hcontents : ∀ content ∈ contents,
    content ∈ honestChunks) :
    pooledUpload.Hears clear pooledEvm.toClientEvm exampleRewards pooledSwarm exampleClient contents
      (merklePayments pooledEvm exampleClient pooledAddresses 1 fun _ => pooledTurn) := by
  refine ⟨fun _ _ => ⟨fun _ _ => ⟨?_, ?_⟩, fun _ _ peer _ => hearsPut_unansweredNet peer⟩,
    fun _ batchResult hpaid => ⟨?_, ?_⟩⟩
  · rintro peers ⟨⟩
  · rintro group ⟨⟩
  · rintro _ _ peers ⟨⟩
    exact nodup_exampleNames
  · intro content hcontent proof hproof group hgroup peer hpeer
    obtain ⟨k, hk, rfl⟩ := mem_honestChunks (hcontents content hcontent)
    obtain ⟨_, _, hpools, hproofs⟩ := mem_merklePayments (by decide) hpaid
    obtain ⟨paid, hpaid, r, hr, hmade⟩ := pooled_stores.2
    obtain rfl := Except.ok.inj ((eq_ok_of_toOption hpaid).symm.trans hpools)
    obtain rfl := Except.ok.inj ((eq_ok_of_toOption hr).symm.trans hproofs)
    have hlookup : ∀ k < 2, Lookup.ofList ((List.range 2).map fun k =>
        (computeAddress clear (honestContent k), pooledProofBytes k))
          (computeAddress clear (honestContent k)) = some (pooledProofBytes k) := by decide
    rw [hmade] at hproof
    obtain rfl := Option.some.inj ((hlookup k hk).symm.trans hproof)
    obtain rfl := Except.ok.inj ((closeGroupPeers_honestNet hk).symm.trans hgroup)
    exact hearsPut_storingNet hk (pooled_stores.1.2 k hk) peer hpeer

/-- Both chunks are durable, paid for in a wave or by a tree. -/
theorem dataUploadWithMode_durable_two :
    (∃ r log, dataUploadWithMode clear durableEvm exampleClient .single exampleMerkle writingUpload
        (.ok (writtenMap, honestChunks)) [] = some (.ok r, log) ∧
      (r.chunksStored = 2 ∧ r.paymentModeUsed = .single) ∧
      ∀ content ∈ honestChunks, Durable clear durableEvm.toClientEvm exampleRewards writtenSwarm
        (writingUpload.Finds clear exampleClient {c | c ∈ honestChunks})
          (computeAddress clear content)) ∧
    ∃ r log, dataUploadWithMode clear pooledEvm exampleClient .merkle (fun _ => pooledTurn) pooledUpload
        (.ok (writtenMap, honestChunks)) [] = some (.ok r, log) ∧
      (r.chunksStored = 2 ∧ r.paymentModeUsed = .merkle) ∧
      ∀ content ∈ honestChunks, Durable clear pooledEvm.toClientEvm exampleRewards pooledSwarm
        (pooledUpload.Finds clear exampleClient {c | c ∈ honestChunks})
          (computeAddress clear content) := by
  constructor
  · obtain ⟨r, log, hr, hstored⟩ := exists_of_mem_toOption written_uploads.1
    exact ⟨r, log, hr, hstored, (dataUploadWithMode_durable started_durableEvm (by decide)
      (hears_writingUpload (fun _ hcontent => hcontent) _) hr).2⟩
  · obtain ⟨r, log, hr, hstored⟩ := exists_of_mem_toOption pooled_uploads.1
    exact ⟨r, log, hr, hstored, (dataUploadWithMode_durable started_pooledSwarm (by decide)
      (hears_pooledUpload fun _ hcontent => hcontent) hr).2⟩

/-- The same from their spill. -/
theorem fileUploadWithMode_durable_two :
    (∃ r log, fileUploadWithMode clear durableEvm exampleClient .single exampleMerkle writingUpload
        (.ok (writtenSpill, writtenMap)) [] = some (.ok r, log) ∧
      (r.chunksStored = 2 ∧ r.paymentModeUsed = .single) ∧
      ∀ a ∈ pooledAddresses, Durable clear durableEvm.toClientEvm exampleRewards writtenSwarm
        (writingUpload.Finds clear exampleClient {c | ∃ a, writtenSpill.files a = some c}) a) ∧
    ∃ r log, fileUploadWithMode clear pooledEvm exampleClient .merkle (fun _ => pooledTurn) pooledUpload
        (.ok (writtenSpill, writtenMap)) [] = some (.ok r, log) ∧
      (r.chunksStored = 2 ∧ r.paymentModeUsed = .merkle) ∧
      ∀ a ∈ pooledAddresses, Durable clear pooledEvm.toClientEvm exampleRewards pooledSwarm
        (pooledUpload.Finds clear exampleClient {c | ∃ a, writtenSpill.files a = some c}) a := by
  have hspilled : encryptFileToSpill clear (fun _ => none) ⟨honestChunks, .ok writtenMap⟩ =
      .ok (writtenSpill, writtenMap) := rfl
  have hcontents : ∀ content ∈ {c | ∃ a, writtenSpill.files a = some c}, content ∈ honestChunks := by
    rintro content ⟨a, ha⟩
    exact ((files_encryptFileToSpill hspilled).2.2 a content ha).1
  constructor
  · obtain ⟨r, log, hr, hstored⟩ := exists_of_mem_toOption written_uploads.2
    exact ⟨r, log, hr, hstored, (fileUploadWithMode_durable started_durableEvm (by decide) hspilled
      (hears_writingUpload hcontents _) hr).2⟩
  · obtain ⟨r, log, hr, hstored⟩ := exists_of_mem_toOption pooled_uploads.2
    exact ⟨r, log, hr, hstored, (fileUploadWithMode_durable started_pooledSwarm (by decide) hspilled
      (hears_pooledUpload hcontents) hr).2⟩

end Example

end Autonomi.AntClient
