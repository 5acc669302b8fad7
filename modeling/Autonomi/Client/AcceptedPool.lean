/-
  What a client pays for by merkle trees (`ant-core/src/data/client/merkle.rs`),
  and any node when it is sent one of the chunks.
-/
import Autonomi.Client.Accepted
import Autonomi.Client.Candidates
import Autonomi.Client.MerkleSplit

namespace Autonomi.AntClient

open Lib AntNode

variable (C : MerkleEvm) (verify : VerifyMerkleProof) (contract : Contract) (client : Client)
  (dataType : UInt32) (dataSize : UInt64)

/-- What `evmlib` documents of its trees: a proof is read back as it was written, and
    `verify_merkle_proof` accepts a leaf of the tree with its proof and any of the midpoints. -/
structure MerkleEvm.Lawful : Prop where
  readMerkleProof : ∀ proof body, C.writeMerkleProof proof = .ok body →
    C.readMerkleProof body = .ok proof
  verifies : ∀ addresses depth timestamp midpoints midpoint i address addressProof,
    C.fromXornames addresses = .ok depth → C.rewardCandidates addresses timestamp = .ok midpoints →
    midpoint ∈ midpoints → addresses[i]? = some address →
    C.generateAddressProof addresses i address = .ok addressProof →
    verify address addressProof midpoint depth timestamp.toNat = .ok ()

/-- What the vault has of a payment: the tree and the time that it was made with, and so many
    candidates of the pool that has won. -/
structure PoolPaid (treeDepth : ℕ) (time : UInt64) (pool : MerklePaymentCandidatePool)
    (info : OnChainPaymentInfo) : Prop where
  depth : info.depth = treeDepth
  timestamp : info.merklePaymentTimestamp = time.toNat
  count : info.paidNodeAddresses.length = treeDepth
  paid : ∀ e ∈ info.paidNodeAddresses, ∃ node, pool.candidateNodes[e.2]? = some node ∧
    node.rewardAddress = e.1

/-- The payments that are made in this turn are in the vault. -/
def PaysTrees (turn : MerkleTurn) : Prop :=
  ∀ depth (pools : List MerklePaymentCandidatePool) timestamp winnerPoolHash pool,
    turn.payForMerkleTree depth (pools.map C.toCommitment) timestamp = .ok winnerPoolHash →
    pools.find? (fun pool => C.poolHash pool = winnerPoolHash) = some pool →
    PoolPaid depth timestamp pool (contract winnerPoolHash)

/-- The proof that is made for an address is one of a pool that was paid, if it is neither too small
    nor too large. -/
def ProvesPool (leaf : XorName × Bytes) : Prop :=
  minPaymentProofSizeBytes ≤ leaf.2.length → leaf.2.length ≤ maxPaymentProofSizeBytes →
    ∃ merkleProof, PooledProof C.toEvm contract verify leaf.1 leaf.2 merkleProof

variable {C verify contract client dataType dataSize} {turn : MerkleTurn}
  {addresses : List XorName}

/-! ## The pools -/

/-- The candidates are checked for what the nodes check. -/
theorem accepts_of_getMerkleCandidatePool {request : MerkleCandidateQuoteRequest} {pool : PoolTurn}
    {candidateNodes : List MerklePaymentCandidateNode}
    (h : getMerkleCandidatePool C pool request = .ok candidateNodes) :
    ∀ c ∈ candidateNodes, Accepts C request c := by
  rcases pool_cases C request pool with ⟨⟨e, herror⟩, -⟩ | ⟨hok, -⟩
  · rw [herror] at h
    cases h
  · obtain rfl := Except.ok.inj (hok.symm.trans h)
    intro c hc
    obtain ⟨a, ha, rfl⟩ := List.mem_map.1 (List.mem_of_mem_take hc)
    exact (mem_accepted.1 ha).2

/-- A pool of candidates that are signed for this time, with one of the midpoints. -/
structure SignedPool (C : MerkleEvm) (midpointProofs : List Bytes) (timestamp : UInt64)
    (pool : MerklePaymentCandidatePool) : Prop where
  midpoint : pool.midpointProof ∈ midpointProofs
  signed : ∀ c ∈ pool.candidateNodes, verifyMerkleCandidateSignature C.toEvm c = true
  timestamp : ∀ c ∈ pool.candidateNodes, c.merklePaymentTimestamp = timestamp.toNat

theorem signedPool_of_buildCandidatePools {midpointProofs : List Bytes} {timestamp : UInt64}
    {pools : List MerklePaymentCandidatePool}
    (h : buildCandidatePools C turn midpointProofs dataType dataSize timestamp = .ok pools) :
    ∀ pool ∈ pools, SignedPool C midpointProofs timestamp pool := by
  intro pool hpool
  obtain ⟨r, hr, hmade⟩ := ok_of_mem_result (mapM_eq_ok.1 h) hpool
  rw [Unordered.mem_order] at hr
  obtain ⟨mp, hmp, rfl⟩ := List.mem_map.1 hr
  obtain ⟨candidateNodes, hnodes, hmade⟩ := bind_eq_ok.1 hmade
  obtain rfl := Except.ok.inj hmade
  have haccepts := accepts_of_getMerkleCandidatePool hnodes
  exact ⟨List.fst_mem_of_mem_zipIdx hmp, fun c hc => (haccepts c hc).1,
    fun c hc => (haccepts c hc).2.1⟩

/-! ## The payment -/

theorem payMerkleTree_eq_ok {winnerPoolHash : PoolHash} {pools : List MerklePaymentCandidatePool}
    (h : payMerkleTree C client turn addresses dataType dataSize = .ok (winnerPoolHash, pools)) :
    ∃ depth timestamp midpointProofs, C.fromXornames addresses = .ok depth ∧
      C.rewardCandidates addresses timestamp = .ok midpointProofs ∧
      (∀ pool ∈ pools, SignedPool C midpointProofs timestamp pool) ∧
      turn.payForMerkleTree depth (pools.map C.toCommitment) timestamp = .ok winnerPoolHash := by
  obtain ⟨_, -, h⟩ := bind_eq_ok.1 h
  obtain ⟨depth, hdepth, h⟩ := bind_eq_ok.1 h
  obtain ⟨timestamp, -, h⟩ := bind_eq_ok.1 h
  obtain ⟨midpointProofs, hmidpoints, h⟩ := bind_eq_ok.1 h
  obtain ⟨candidatePools, hpools, h⟩ := bind_eq_ok.1 h
  obtain ⟨winner, hwinner, h⟩ := bind_eq_ok.1 h
  cases h
  exact ⟨depth, timestamp, midpointProofs, mapError_eq_ok.1 hdepth, mapError_eq_ok.1 hmidpoints,
    signedPool_of_buildCandidatePools hpools, mapError_eq_ok.1 hwinner⟩

/-- A leaf of a tree that was paid for has a proof. -/
theorem provesPool_of_merkleProof {depth : ℕ} {timestamp : UInt64} {midpointProofs : List Bytes}
    {pool : MerklePaymentCandidatePool} {leaf : XorName × ℕ} {proof : XorName × Bytes}
    (hC : C.Lawful verify) (hdepth : C.fromXornames addresses = .ok depth)
    (hmidpoints : C.rewardCandidates addresses timestamp = .ok midpointProofs)
    (hsigned : SignedPool C midpointProofs timestamp pool)
    (hpays : PoolPaid depth timestamp pool (contract (C.poolHash pool)))
    (hleaf : leaf ∈ addresses.zipIdx) (h : merkleProof C addresses pool leaf = .ok proof) :
    ProvesPool C verify contract proof := by
  obtain ⟨addressProof, haddress, h⟩ := bind_eq_ok.1 h
  obtain ⟨body, hbody, h⟩ := bind_eq_ok.1 h
  obtain rfl := Except.ok.inj h
  intro hmin hmax
  refine ⟨⟨leaf.1, addressProof, pool⟩, ⟨hmin, hmax⟩, ?_, rfl, ?_, ?_⟩
  · simp [deserializeMerkleProof, hC.readMerkleProof _ _ (mapError_eq_ok.1 hbody), Except.mapError]
  · exact ⟨hsigned.signed, fun c hc => (hsigned.timestamp c hc).trans hpays.timestamp.symm,
      hpays.count.trans hpays.depth.symm, hpays.paid⟩
  · rw [hpays.depth, hpays.timestamp]
    exact hC.verifies addresses depth timestamp midpointProofs _ leaf.2 leaf.1 addressProof hdepth
      hmidpoints hsigned.midpoint (List.mem_zipIdx_iff_getElem?.1 hleaf) (mapError_eq_ok.1 haddress)

/-- The proofs of one sub-batch. -/
theorem holds_payForMerkleSingleBatch (hC : C.Lawful verify) (hpays : PaysTrees C contract turn)
    (log : List Event) :
    Act.Holds (payForMerkleSingleBatch C client turn addresses dataType dataSize) log
      (fun r _ => r.proofs.map Prod.fst = addresses ∧
        ∀ proof ∈ r.proofs, ProvesPool C verify contract proof) fun _ _ => True := by
  refine Act.holds_bind (Act.holds_ofExcept (Q := fun paid _ =>
    payMerkleTree C client turn addresses dataType dataSize = .ok paid)
      (fun _ h => h) fun _ _ => trivial) ?_
  rintro ⟨winnerPoolHash, pools⟩ log hpaid
  obtain ⟨depth, timestamp, midpointProofs, hdepth, hmidpoints, hsigned, hwinner⟩ :=
    payMerkleTree_eq_ok hpaid
  refine Act.holds_modify_bind (Act.holds_ofExcept (fun r hr => ?_) fun _ _ => trivial)
  refine ⟨(merkleProofs_keys hr).1, fun proof hproof => ?_⟩
  obtain ⟨pool, hpool, hr⟩ := bind_eq_ok.1 hr
  obtain ⟨proofs, hproofs, hr⟩ := bind_eq_ok.1 hr
  obtain rfl := Except.ok.inj hr
  obtain ⟨leaf, hleaf, hmade⟩ := ok_of_mem_result (mapM_eq_ok.1 hproofs) hproof
  have hfound := okOr_eq_ok.1 hpool
  have hhash : C.poolHash pool = winnerPoolHash := by simpa using List.find?_some hfound
  have hcontract := hpays depth pools timestamp winnerPoolHash pool hwinner hfound
  rw [← hhash] at hcontract
  exact provesPool_of_merkleProof hC hdepth hmidpoints (hsigned pool (List.mem_of_find?_eq_some hfound))
    hcontract hleaf hmade

/-- The proofs of all sub-batches. -/
theorem holds_payForMerkleSubBatches {batches : List (MerkleTurn × List XorName)}
    (hC : C.Lawful verify) (hpays : ∀ b ∈ batches, PaysTrees C contract b.1) (log : List Event) :
    Act.Holds (batches.foldlM (payForMerkleSubBatch C client dataType dataSize) []) log
      (fun proofs _ => proofs.map Prod.fst = (batches.map Prod.snd).flatten ∧
        ∀ proof ∈ proofs, ProvesPool C verify contract proof) fun _ _ => True := by
  refine Act.holds_foldlM (I := fun gone proofs _ =>
    proofs.map Prod.fst = (gone.map Prod.snd).flatten ∧
      ∀ proof ∈ proofs, ProvesPool C verify contract proof) (fun gone b rest proofs log hall hI => ?_)
    batches [] [] log (List.nil_append _) ⟨rfl, by simp⟩
  have hb : b ∈ batches := by simp [← hall]
  refine Act.holds_bind (holds_payForMerkleSingleBatch hC (hpays b hb) log) fun r log hr => ?_
  refine Act.holds_pure ⟨?_, fun proof hproof => ?_⟩
  · rw [List.map_append, hI.1, hr.1, List.map_append, List.flatten_append]
    simp
  · exact (List.mem_append.1 hproof).elim (hI.2 proof) (hr.2 proof)

/-- The proofs of a batch, in one tree or in several. -/
theorem holds_payForMerkleBatch {turns : ℕ → MerkleTurn} (hC : C.Lawful verify)
    (hpays : ∀ i, PaysTrees C contract (turns i)) (log : List Event) :
    Act.Holds (payForMerkleBatch C client addresses dataType dataSize turns) log
      (fun r _ => r.proofs.map Prod.fst = addresses ∧
        ∀ proof ∈ r.proofs, ProvesPool C verify contract proof) fun _ _ => True := by
  rw [payForMerkleBatch]
  split_ifs
  · exact Act.holds_throw trivial
  · have hturns : ∀ b ∈ subBatches C addresses turns, PaysTrees C contract b.1 := by
      intro b hb
      obtain ⟨i, hi, rfl⟩ := List.mem_mapIdx.1 hb
      exact hpays i
    refine Act.holds_bind (holds_payForMerkleSubBatches hC hturns log) fun proofs _ hproofs => ?_
    rw [map_snd_subBatches, flatten_chunked (Nat.zero_lt_of_lt C.one_lt_maxLeaves)] at hproofs
    exact Act.holds_pure hproofs
  · exact holds_payForMerkleSingleBatch hC (hpays 0) log

/-! ## The chunks -/

/-- **What a tree is paid for is stored**: each address of a merkle batch gets a proof that every
    node accepts, whoever the candidates are.  (The chunk is no larger than a node takes, and the proof
    neither too small nor too large for it.) -/
theorem payForMerkleBatch_stored {P : Primitives} {turns : ℕ → MerkleTurn} {log log' : List Event}
    {r : MerkleBatchPaymentResult} (hC : C.Lawful verify) (hpays : ∀ i, PaysTrees C contract (turns i))
    (hpaid : payForMerkleBatch C client addresses dataType dataSize turns log = some (.ok r, log')) :
    r.proofs.map Prod.fst = addresses ∧ ∀ content proof,
      (computeAddress P content, proof) ∈ r.proofs → content.length ≤ AntNode.maxChunkSize →
      minPaymentProofSizeBytes ≤ proof.length → proof.length ≤ maxPaymentProofSizeBytes →
      ∀ localRewardsAddress, NodeState.StoresPut
        (Verifier.PoolUndisturbed C.toEvm contract verify proof) (computeAddress P content) content
        proof P C.toEvm localRewardsAddress := by
  obtain ⟨hkeys, hproves⟩ := (holds_payForMerkleBatch hC hpays log).1 r log' hpaid
  refine ⟨hkeys, fun content proof hproof hsize hmin hmax localRewardsAddress => ?_⟩
  obtain ⟨merkleProof, hpooled⟩ := hproves _ hproof hmin hmax
  exact NodeState.storesPut_of_admits (Verifier.admits_pooledProof hpooled) hsize rfl

/-! ## A tree of two chunks -/

section Example

/-- A candidate with a short key, that signs by repeating what it signs. -/
def pooledCandidate (n : ℕ) : MerklePaymentCandidateNode where
  pubKey := [UInt8.ofNat n]
  quotingMetrics := exampleMetrics
  rewardAddress := exampleAddress n
  merklePaymentTimestamp := 1000
  signature := [UInt8.ofNat n] ++ ((exampleAddress n).toList ++ leBytes 8 1000)

def pooledAddresses : List XorName :=
  (List.range 2).map fun k => computeAddress clear (honestContent k)

/-- The proof of the `k`-th leaf, from the first of the pools. -/
def pooledProof (k : ℕ) : MerklePaymentProof :=
  ⟨computeAddress clear (honestContent k), [UInt8.ofNat k],
    ⟨[0], (List.range 16).map pooledCandidate⟩⟩

def pooledBody (k : ℕ) : Bytes := List.replicate 32 (UInt8.ofNat k)

def pooledProofBytes (k : ℕ) : Bytes := proofTagMerkle :: pooledBody k

/-- Writes the proofs of the two leaves, and commits to the first candidate of a pool. -/
def pooledEvm : MerkleEvm :=
  { exampleMerkleEvm with
    mlDsaVerify := fun pubKey message signature => signature = pubKey ++ message
    toCommitment := fun pool => (pool.candidateNodes.head?.map fun c => c.rewardAddress.toList).getD []
    readCandidate := fun bytes => .ok (pooledCandidate (bytes.headD 0).toNat)
    writeMerkleProof := fun proof =>
      okOr "not modelled" (((List.range 2).find? fun k => pooledProof k = proof).map pooledBody)
    readMerkleProof := fun body => .ok (pooledProof (body.headD 0).toNat) }

/-- The vault pays the first candidate for a tree of depth one. -/
def pooledTurn : MerkleTurn where
  now := .ok 1000
  pool _ := examplePool 16
  poolOrder := .asStarted
  payForMerkleTree depth commitments timestamp :=
    if depth = 1 ∧ timestamp = 1000 ∧ ∀ c ∈ commitments, c = (exampleAddress 0).toList then
      .ok (padTo 32 [])
    else .error "execution reverted"

def pooledContract : Contract := fun _ => ⟨1, 1000, [(exampleAddress 0, 0)]⟩

/-- Each leaf belongs to its tree. -/
def acceptingVerify : VerifyMerkleProof := fun _ _ _ _ _ => .ok ()

theorem lawful_pooledEvm : pooledEvm.Lawful acceptingVerify := by
  refine ⟨fun proof body h => ?_, fun _ _ _ _ _ _ _ _ _ _ _ _ _ => rfl⟩
  obtain ⟨k, hk, rfl⟩ := Option.map_eq_some_iff.1 (okOr_eq_ok.1 h)
  obtain rfl : pooledProof k = proof := by simpa using List.find?_some hk
  have hlt : k < 2 := List.mem_range.1 (List.mem_of_find?_eq_some hk)
  have hbyte : (UInt8.ofNat k).toNat = k := by
    rw [UInt8.toNat_ofNat']
    omega
  change Except.ok (pooledProof (UInt8.ofNat k).toNat) = _
  rw [hbyte]

theorem paysTrees_pooledTurn : PaysTrees pooledEvm pooledContract pooledTurn := by
  intro depth pools timestamp winnerPoolHash pool hpay hfound
  have hpay : (if _ then _ else _) = Except.ok winnerPoolHash := hpay
  split_ifs at hpay with h
  obtain ⟨rfl, rfl, hcommitted⟩ := h
  have hcommitted := hcommitted _ (List.mem_map_of_mem (List.mem_of_find?_eq_some hfound))
  refine ⟨rfl, rfl, rfl, fun e he => ?_⟩
  rw [List.mem_singleton.1 he]
  obtain ⟨midpointProof, _ | ⟨c, candidateNodes⟩⟩ := pool
  · cases hcommitted
  · exact ⟨c, rfl, Subtype.ext hcommitted⟩

def pooledPut (k : ℕ) : ChunkPutRequest :=
  ⟨computeAddress clear (honestContent k), honestContent k, some (pooledProofBytes k)⟩

/-- The vault is asked for a pool that is not in the cache. -/
def askPool (i : ℕ) : List NodeAction :=
  [.verify (.poolQuery i (.ok (pooledContract (padTo 32 [])))), .verify (.poolPut i)]

/-- The PUT of the `k`-th chunk as the `i`-th of a node, from its request to its answer, with what it
    takes to know of the pool. -/
def pooledActions (i k : ℕ) (asks : List NodeAction) : List NodeAction :=
  [.put (pooledPut k), .check i .none, .verify (.check i (seconds 100)), .verify (.poolGet i)] ++ asks ++
    [.verify (.pool i (.ok ())), .verify (.insert i), .verified i .none, .write i .none,
      .recordStored i, .recordType i, .recordPayment i]

theorem trace_pooledActions {s : NodeState} {content proof : Bytes} {address : XorName}
    (h : Runs (NodeState.step clear pooledEvm.toEvm (exampleAddress 99))
      (.open roomyStorage exampleTracker) (pooledActions 0 0 (askPool 0)) s) :
    Trace (NodeState.step clear pooledEvm.toEvm (exampleAddress 99))
      (NodeState.Undisturbed (Verifier.PoolUndisturbed pooledEvm.toEvm pooledContract
        acceptingVerify proof) address content proof) (.open roomyStorage exampleTracker)
      (pooledActions 0 0 (askPool 0)) s := by
  refine NodeState.trace_undisturbed rfl (by simp [pooledActions, askPool, NodeState.FaultFree]) ?_ h
  intro a ha v
  simp only [pooledActions, askPool, List.cons_append, List.nil_append, List.mem_cons, reduceCtorEq,
    NodeAction.verify.injEq, false_or, List.not_mem_nil, or_false] at ha
  rcases ha with rfl | rfl | rfl | rfl | rfl | rfl
  · trivial
  · trivial
  · exact fun _ _ _ _ => ⟨fun info h => (Except.ok.inj h).symm, fun _ => ⟨_, rfl⟩⟩
  · trivial
  · exact fun _ _ _ _ _ _ => rfl
  · trivial

/-- What a tree of the two chunks comes to. -/
theorem pooled_runs :
    (∃ paid ∈ payForMerkleBatch pooledEvm exampleClient pooledAddresses dataTypeChunk 0
        (fun _ => pooledTurn) [], ∃ r ∈ paid.1.toOption,
      (exampleContent, pooledProofBytes 0) ∈ r.proofs) ∧
    ∃ s ∈ (pooledActions 0 0 (askPool 0)).foldlM
        (NodeState.step clear pooledEvm.toEvm (exampleAddress 99)) (.open roomyStorage exampleTracker),
      s.puts = [⟨pooledPut 0, .done (.success exampleContent)⟩] := by decide +kernel

/-- Both chunks are paid for, and a node that is no candidate stores the first. -/
theorem payForMerkleBatch_stored_two : ∃ r log s,
    payForMerkleBatch pooledEvm exampleClient pooledAddresses dataTypeChunk 0 (fun _ => pooledTurn) [] =
      some (.ok r, log) ∧
    r.proofs.map Prod.fst = pooledAddresses ∧
    Runs (NodeState.step clear pooledEvm.toEvm (exampleAddress 99)) (.open roomyStorage exampleTracker)
      (pooledActions 0 0 (askPool 0)) s ∧
    ∃ p ∈ s.puts, ∃ response, p.state = .done response ∧
      (response = .success exampleContent ∨ response = .alreadyExists exampleContent) := by
  obtain ⟨⟨paid, hpaid, hfirst⟩, s, hs, hputs⟩ := pooled_runs
  obtain ⟨result, log⟩ := paid
  obtain ⟨r, hr, hfirst⟩ := hfirst
  obtain rfl := eq_ok_of_toOption hr
  obtain ⟨hkeys, hstored⟩ := payForMerkleBatch_stored (P := clear) lawful_pooledEvm
    (fun _ => paysTrees_pooledTurn) hpaid
  have hmem : _ ∈ s.puts := hputs ▸ List.mem_singleton_self _
  exact ⟨r, log, s, hpaid, hkeys, runs_iff.2 hs, _, hmem, _, rfl,
    hstored (honestContent 0) _ hfirst (by decide) (by decide) (by decide) (exampleAddress 99) _ _ _ _
      (trace_pooledActions (runs_iff.2 hs)) _ hmem rfl _ rfl⟩

end Example

end Autonomi.AntClient
