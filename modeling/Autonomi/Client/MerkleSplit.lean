/-
  How a large merkle batch is split: which sub-batches can be paid for at all.
-/
import Autonomi.Client.PaidOnce

namespace Autonomi.AntClient

open Lib AntNode

/-- What `evmlib` documents: a tree has two leaves at least and so many at most, and each of its
    leaves has a proof. -/
structure MerkleEvm.Works (C : MerkleEvm) : Prop where
  leaves : ∀ addresses, (∃ depth, C.fromXornames addresses = .ok depth) ↔
    2 ≤ addresses.length ∧ addresses.length ≤ C.maxLeaves
  addressProof : ∀ addresses depth i a, C.fromXornames addresses = .ok depth →
    addresses[i]? = some a → ∃ proof, C.generateAddressProof addresses i a = .ok proof
  writes : ∀ proof, ∃ body, C.writeMerkleProof proof = .ok body

variable (C : MerkleEvm) (client : Client) (dataType : UInt32) (dataSize : UInt64)

/-- The network answers for the pools of this batch, and the payment is made. -/
def Succeeds (b : MerkleTurn × List XorName) : Prop :=
  ∀ depth, C.fromXornames b.2 = .ok depth → ∃ now midpoints pools winner pool,
    b.1.now = .ok now ∧ C.rewardCandidates b.2 now = .ok midpoints ∧
    buildCandidatePools C b.1 midpoints dataType dataSize now = .ok pools ∧
    b.1.payForMerkleTree depth (pools.map C.toCommitment) now = .ok winner ∧
    pool ∈ pools ∧ C.poolHash pool = winner

/-- **Every sub-batch can be paid for.** -/
structure PayableSplit (addresses : List XorName) : Prop where
  /-- the batch is paid for sub-batch by sub-batch -/
  calls : ∀ turns log, payForMerkleBatch C client addresses dataType dataSize turns log =
    (do
      let allProofs ← (subBatches C addresses turns).foldlM
        (payForMerkleSubBatch C client dataType dataSize) []
      pure ⟨allProofs, addresses.length⟩ : Upload MerkleBatchPaymentResult) log
  partition : ∀ turns, ((subBatches C addresses turns).map Prod.snd).flatten = addresses
  sizes : ∀ turns, ∀ b ∈ subBatches C addresses turns, 2 ≤ b.2.length ∧ b.2.length ≤ C.maxLeaves
  /-- no tree is refused, so that none is after a payment -/
  trees : ∀ turns, ∀ b ∈ subBatches C addresses turns, ∃ depth, C.fromXornames b.2 = .ok depth
  succeeds : ∀ turns, (∀ b ∈ subBatches C addresses turns, Succeeds C dataType dataSize b) →
    ∃ proofs log, payForMerkleBatch C client addresses dataType dataSize turns [] =
        some (.ok ⟨proofs, addresses.length⟩, log) ∧
      proofs.map Prod.fst = addresses ∧ ∀ a ∈ addresses, ∃! body, (a, body) ∈ proofs

variable {C client dataType dataSize} {addresses : List XorName}

/-! ## One sub-batch -/

/-- The proofs are those of the addresses, in their order. -/
theorem merkleProofs_keys {winner : PoolHash} {pools : List MerklePaymentCandidatePool}
    {r : MerkleBatchPaymentResult} (h : merkleProofs C addresses winner pools = .ok r) :
    r.proofs.map Prod.fst = addresses ∧ r.chunkCount = addresses.length := by
  simp only [merkleProofs, bind_eq_ok] at h
  obtain ⟨pool, -, proofs, hproofs, h⟩ := h
  obtain rfl := Except.ok.inj h
  have hkeys : (addresses.zipIdx.map Prod.fst) = proofs.map Prod.fst := by
    refine List.forall₂_eq_eq_eq ▸ ?_
    rw [List.forall₂_map_left_iff, List.forall₂_map_right_iff]
    refine (mapM_eq_ok.1 hproofs).imp fun leaf proof hproof => ?_
    simp only [merkleProof, bind_eq_ok] at hproof
    obtain ⟨_, -, _, -, hproof⟩ := hproof
    obtain rfl := Except.ok.inj hproof
    rfl
  exact ⟨by rw [← hkeys, List.zipIdx_map_fst], rfl⟩

theorem completes_of_succeeds (hC : C.Works) (hwallet : client.wallet = true)
    {b : MerkleTurn × List XorName} {depth : ℕ} (hdepth : C.fromXornames b.2 = .ok depth)
    (h : Succeeds C dataType dataSize b) : Completes C client dataType dataSize b := by
  obtain ⟨now, midpoints, pools, winner, pool, hnow, hmidpoints, hpools, hpay, hpool, hhash⟩ :=
    h depth hdepth
  have hfind : ∃ found, pools.find? (fun pool => C.poolHash pool = winner) = some found :=
    Option.isSome_iff_exists.1 (List.find?_isSome.2 ⟨pool, hpool, by simpa using hhash⟩)
  obtain ⟨found, hfound⟩ := hfind
  have hproof : ∀ leaf ∈ b.2.zipIdx, ∃ proof, merkleProof C b.2 found leaf = .ok proof := by
    intro leaf hleaf
    obtain ⟨proof, hp⟩ := hC.addressProof b.2 depth leaf.2 leaf.1 hdepth
      (List.mem_zipIdx_iff_getElem?.1 hleaf)
    obtain ⟨body, hbody⟩ := hC.writes ⟨leaf.1, proof, found⟩
    exact ⟨(leaf.1, proofTagMerkle :: body), by
      simp only [merkleProof, hp, hbody, Except.mapError, bind, Except.bind]
      rfl⟩
  obtain ⟨proofs, hproofs⟩ := mapM_isOk hproof
  refine ⟨(winner, pools), ⟨proofs, b.2.length⟩, ?_, ?_⟩
  · simp only [payMerkleTree, Client.requireWallet, hwallet, hdepth, hnow, hmidpoints, hpools, hpay,
      Except.mapError, bind, Except.bind]
    rfl
  · simp only [merkleProofs, hfound, okOr_some, hproofs, bind, Except.bind]
    rfl

/-! ## All of them -/

variable {batches : List (MerkleTurn × List XorName)}

theorem payForMerkleSingleBatch_ok {turn : MerkleTurn} {batch : List XorName}
    (h : Completes C client dataType dataSize (turn, batch)) (log : List Event) :
    ∃ r, payForMerkleSingleBatch C client turn batch dataType dataSize log =
        some (.ok r, log ++ [.charged batch]) ∧ r.proofs.map Prod.fst = batch := by
  obtain ⟨paid, r, hpay, hproofs⟩ := h
  refine ⟨r, ?_, (merkleProofs_keys hproofs).1⟩
  rw [payForMerkleSingleBatch, hpay]
  change some (merkleProofs C batch paid.1 paid.2, log ++ [.charged batch]) = _
  rw [hproofs]

/-- Completed sub-batches are charged for in their order, and their proofs put together. -/
theorem payForMerkleSubBatches_ok (h : ∀ b ∈ batches, Completes C client dataType dataSize b)
    (acc : List (XorName × Bytes)) (log : List Event) :
    ∃ proofs, batches.foldlM (payForMerkleSubBatch C client dataType dataSize) acc log =
        some (.ok (acc ++ proofs), log ++ chargeEvents batches) ∧
      proofs.map Prod.fst = (batches.map Prod.snd).flatten := by
  induction batches generalizing acc log with
  | nil => exact ⟨[], by rw [List.append_nil, chargeEvents, List.map_nil, List.append_nil]; rfl, rfl⟩
  | cons b batches ih =>
    obtain ⟨r, hrun, hkeys⟩ := payForMerkleSingleBatch_ok (h b List.mem_cons_self) log
    have hsub : payForMerkleSubBatch C client dataType dataSize acc b log =
        some (.ok (acc ++ r.proofs), log ++ [.charged b.2]) := Act.bind_of_ok hrun
    obtain ⟨proofs, hrest, hflat⟩ := ih (fun b hb => h b (List.mem_cons_of_mem _ hb))
      (acc ++ r.proofs) (log ++ [.charged b.2])
    refine ⟨r.proofs ++ proofs, ?_, ?_⟩
    · rw [List.foldlM_cons, Act.bind_of_ok hsub, hrest, List.append_assoc, List.append_assoc]
      rfl
    · rw [List.map_append, hkeys, hflat, List.map_cons, List.flatten_cons]

/-- A single batch is one sub-batch. -/
theorem payForMerkleBatch_eq (hlen : 2 ≤ addresses.length) (turns : ℕ → MerkleTurn)
    (log : List Event) : payForMerkleBatch C client addresses dataType dataSize turns log =
      (do
        let allProofs ← (subBatches C addresses turns).foldlM
          (payForMerkleSubBatch C client dataType dataSize) []
        pure ⟨allProofs, addresses.length⟩ : Upload MerkleBatchPaymentResult) log := by
  rw [payForMerkleBatch, if_neg (by omega)]
  by_cases hmany : C.maxLeaves < addresses.length
  · rw [if_pos hmany]
    rfl
  rw [if_neg hmany]
  have hnil : addresses ≠ [] := by
    rintro rfl
    simp at hlen
  have hone : subBatches C addresses turns = [(turns 0, addresses)] := by
    rw [subBatches, chunked_of_length_le hnil (not_lt.1 hmany)]
    rfl
  rw [hone, List.foldlM_cons]
  simp only [List.foldlM_nil, bind_pure, payForMerkleSubBatch, bind_assoc, pure_bind,
    List.nil_append]
  rcases hpay : payMerkleTree C client (turns 0) addresses dataType dataSize with e | paid
  · rw [payForMerkleSingleBatch, hpay]
    rfl
  rcases hproofs : merkleProofs C addresses paid.1 paid.2 with e | r
  · have hrun : payForMerkleSingleBatch C client (turns 0) addresses dataType dataSize log =
        some (.error e, log ++ [.charged addresses]) := by
      rw [payForMerkleSingleBatch, hpay]
      change some (merkleProofs C addresses paid.1 paid.2, log ++ [.charged addresses]) = _
      rw [hproofs]
    rw [Act.bind_of_error hrun, hrun]
  · have hrun : payForMerkleSingleBatch C client (turns 0) addresses dataType dataSize log =
        some (.ok r, log ++ [.charged addresses]) := by
      rw [payForMerkleSingleBatch, hpay]
      change some (merkleProofs C addresses paid.1 paid.2, log ++ [.charged addresses]) = _
      rw [hproofs]
    rw [Act.bind_of_ok hrun, hrun]
    obtain ⟨-, hcount⟩ := merkleProofs_keys hproofs
    rw [← hcount]
    rfl

/-- **When a merkle batch can be split**: exactly if no single address is left over. -/
theorem payable_split_iff (hC : C.Works) (hwallet : client.wallet = true)
    (hlen : 2 ≤ addresses.length) (hnodup : addresses.Nodup) :
    PayableSplit C client dataType dataSize addresses ↔
      addresses.length % C.maxLeaves ≠ 1 := by
  have hmax := C.one_lt_maxLeaves
  have hmem : ∀ turns, ∀ b ∈ subBatches C addresses turns, b.2 ∈ chunked C.maxLeaves addresses := by
    intro turns b hb
    rw [← map_snd_subBatches]
    exact List.mem_map_of_mem hb
  constructor
  · intro h
    refine (two_le_length_chunked_iff hmax addresses).1 fun batch hbatch => ?_
    rw [← map_snd_subBatches addresses exampleMerkle] at hbatch
    obtain ⟨b, hb, rfl⟩ := List.mem_map.1 hbatch
    exact (h.sizes _ b hb).1
  · intro hone
    have hsizes : ∀ turns, ∀ b ∈ subBatches C addresses turns,
        2 ≤ b.2.length ∧ b.2.length ≤ C.maxLeaves := fun turns b hb =>
      ⟨(two_le_length_chunked_iff hmax addresses).2 hone _ (hmem turns b hb),
        length_of_mem_chunked (hmem turns b hb)⟩
    have hpartition : ∀ turns, ((subBatches C addresses turns).map Prod.snd).flatten = addresses := by
      intro turns
      rw [map_snd_subBatches, flatten_chunked (by omega)]
    refine ⟨payForMerkleBatch_eq hlen, hpartition, hsizes,
      fun turns b hb => (hC.leaves _).2 (hsizes turns b hb), fun turns hsucceeds => ?_⟩
    have hcompletes : ∀ b ∈ subBatches C addresses turns,
        Completes C client dataType dataSize b := by
      intro b hb
      obtain ⟨depth, hdepth⟩ := (hC.leaves _).2 (hsizes turns b hb)
      exact completes_of_succeeds hC hwallet hdepth (hsucceeds b hb)
    obtain ⟨proofs, hrun, hkeys⟩ := payForMerkleSubBatches_ok hcompletes [] []
    rw [hpartition] at hkeys
    refine ⟨proofs, chargeEvents (subBatches C addresses turns), ?_, hkeys, fun a ha => ?_⟩
    · rw [payForMerkleBatch_eq hlen, Act.bind_of_ok hrun]
      rfl
    · rw [← hkeys] at ha hnodup
      obtain ⟨⟨a, body⟩, hmem, rfl⟩ := List.mem_map.1 ha
      refine ⟨body, hmem, fun body' hmem' => ?_⟩
      exact congrArg Prod.snd (List.inj_on_of_nodup_map hnodup hmem' hmem rfl)

/-! ## A leaf left over -/

/-- Trees of two to 256 leaves. -/
def boundedMerkleEvm : MerkleEvm :=
  { exampleMerkleEvm with
    fromXornames := fun leaves =>
      if leaves.length < 2 then .error "Too few leaves"
      else if 256 < leaves.length then .error "Too many leaves"
      else .ok (exampleDepth leaves.length) }

theorem boundedMerkleEvm_works : boundedMerkleEvm.Works where
  leaves addresses := by
    change (∃ depth, (if addresses.length < 2 then _ else if 256 < addresses.length then _ else _) =
      Except.ok depth) ↔ 2 ≤ addresses.length ∧ addresses.length ≤ 256
    split_ifs with h2 hmany
    · exact iff_of_false nofun (by omega)
    · exact iff_of_false nofun (by omega)
    · exact iff_of_true ⟨_, rfl⟩ (by omega)
  addressProof _ _ i _ _ _ := ⟨[UInt8.ofNat i], rfl⟩
  writes _ := ⟨List.replicate 31 7, rfl⟩

def exampleLeaves (n : ℕ) : List XorName :=
  (List.range n).map fun i => padTo 32 [UInt8.ofNat (i / 256), UInt8.ofNat i]

theorem nodup_exampleLeaves {n : ℕ} (hn : n ≤ 65536) : (exampleLeaves n).Nodup := by
  refine List.Nodup.map_on (fun i hi j hj heq => ?_) List.nodup_range
  have hbytes : ∀ k, ((padTo 32 [UInt8.ofNat (k / 256), UInt8.ofNat k]).toList.take 2).map
      UInt8.toNat = [k / 256 % 256, k % 256] := fun k => by simp [padTo, List.Vector.toList_mk]
  have hlists : [i / 256 % 256, i % 256] = [j / 256 % 256, j % 256] := by
    rw [← hbytes, heq, hbytes]
  simp only [List.cons.injEq, and_true] at hlists
  rw [List.mem_range] at hi hj
  omega

theorem length_exampleLeaves (n : ℕ) : (exampleLeaves n).length = n := by
  rw [exampleLeaves, List.length_map, List.length_range]

/-- The candidates do not depend on the trees. -/
theorem collectValidatedCandidates_congr (C C' : MerkleEvm) (h : C.toClientEvm = C'.toClientEvm)
    {merklePaymentTimestamp : UInt64} {expectedDataType : UInt32}
    (candidates : List MerklePaymentCandidateNode) (failures : List String)
    (results : List CandidateResult) :
    collectValidatedCandidates C merklePaymentTimestamp expectedDataType candidates failures results =
      collectValidatedCandidates C' merklePaymentTimestamp expectedDataType candidates failures
        results := by
  induction results generalizing candidates failures with
  | nil => rfl
  | cons r results ih =>
    obtain ⟨peerId, e | candidate⟩ := r
    · simp only [collectValidatedCandidates, h, ih]
    · simp only [collectValidatedCandidates, h, ih]

/-- The network answers for any sub-batch. -/
theorem succeeds_example (batch : List XorName) :
    Succeeds boundedMerkleEvm dataTypeChunk 0 (exampleMerkle 0, batch) := by
  intro depth _
  obtain ⟨nodes, hnodes⟩ := examplePool_answers
  have hrequest : requestCandidate boundedMerkleEvm = requestCandidate exampleMerkleEvm := rfl
  have hsame : ∀ address dataSize, getMerkleCandidatePool boundedMerkleEvm (examplePool 16)
      ⟨address, dataTypeChunk, dataSize, 1000⟩ = .ok nodes := by
    intro address dataSize
    rw [← hnodes address dataSize]
    simp only [getMerkleCandidatePool, hrequest,
      collectValidatedCandidates_congr boundedMerkleEvm exampleMerkleEvm rfl]
  have hpools := buildCandidatePools_example hsame
  refine ⟨1000, _, _, padTo 32 [], ⟨[0], nodes⟩, rfl, rfl, hpools _ 0, rfl, ?_, rfl⟩
  refine List.mem_map.2 ⟨([0], 0), List.mem_zipIdx_iff_getElem?.2 ?_, rfl⟩
  rw [List.getElem?_map, List.getElem?_range (by positivity)]
  rfl

/-- Two sub-batches, of 256 addresses and of two. -/
theorem payable_split_258 :
    ((subBatches boundedMerkleEvm (exampleLeaves 258) fun _ => exampleMerkle 0).map
      fun b => b.2.length) = [256, 2] ∧
    PayableSplit boundedMerkleEvm exampleClient dataTypeChunk 0 (exampleLeaves 258) ∧
    ∃ proofs log, payForMerkleBatch boundedMerkleEvm exampleClient (exampleLeaves 258) dataTypeChunk 0
        (fun _ => exampleMerkle 0) [] = some (.ok ⟨proofs, 258⟩, log) ∧
      proofs.map Prod.fst = exampleLeaves 258 := by
  have hlen : (exampleLeaves 258).length = 258 := length_exampleLeaves 258
  have hpayable : PayableSplit boundedMerkleEvm exampleClient dataTypeChunk 0 (exampleLeaves 258) :=
    (payable_split_iff boundedMerkleEvm_works rfl (by omega) (nodup_exampleLeaves (by decide))).2
      (by rw [hlen]; decide)
  refine ⟨?_, hpayable, ?_⟩
  · have hcount : (258 + 256 - 1) / 256 = 2 := by decide
    change List.map (List.length ∘ Prod.snd) _ = _
    rw [← List.map_map, map_snd_subBatches]
    change (chunked 256 (exampleLeaves 258)).map List.length = _
    rw [chunked, hlen, hcount, List.map_map]
    simp [Function.comp_def, length_slice, hlen, List.range_succ]
  · obtain ⟨proofs, log, hrun, hkeys, -⟩ := hpayable.succeeds (fun _ => exampleMerkle 0)
      fun b hb => by
        obtain ⟨i, hi, rfl⟩ := List.mem_mapIdx.1 hb
        exact succeeds_example _
    rw [hlen] at hrun
    exact ⟨proofs, log, hrun, hkeys⟩

/-- One address more than a tree holds. -/
theorem not_payable_split : (exampleLeaves 257).Nodup ∧
    ¬ PayableSplit boundedMerkleEvm exampleClient dataTypeChunk 0 (exampleLeaves 257) := by
  refine ⟨nodup_exampleLeaves (by decide), fun h => ?_⟩
  have hlen : (exampleLeaves 257).length = 257 := length_exampleLeaves 257
  have hchunk : slice (exampleLeaves 257) 256 512 ∈ chunked 256 (exampleLeaves 257) := by
    rw [chunked, hlen]
    exact List.mem_map.2 ⟨1, by decide, rfl⟩
  rw [show 256 = boundedMerkleEvm.maxLeaves from rfl, ← map_snd_subBatches _ exampleMerkle] at hchunk
  obtain ⟨b, hb, hslice⟩ := List.mem_map.1 hchunk
  have hsize := (h.sizes _ b hb).1
  rw [hslice, length_slice, hlen] at hsize
  exact absurd hsize (by decide)

end Autonomi.AntClient
