/-
  The nodes of a candidate pool (`get_merkle_candidate_pool`).
-/
import Autonomi.Client.PaidOnce

namespace Autonomi.AntClient

open Lib AntNode

variable (C : MerkleEvm) (request : MerkleCandidateQuoteRequest)

/-- What `collect_validated_candidates` checks. -/
def Accepts (c : MerklePaymentCandidateNode) : Prop :=
  verifyMerkleCandidateSignature C.toEvm c = true ∧
    c.merklePaymentTimestamp = request.merklePaymentTimestamp.toNat ∧
      c.quotingMetrics.dataType = request.dataType

instance (c : MerklePaymentCandidateNode) : Decidable (Accepts C request c) :=
  inferInstanceAs (Decidable (_ ∧ _ ∧ _))

/-- What comes of the requests to the peers that are queried. -/
def candidateAnswers (net : Network) (connectedPeers : List PeerId) : List CandidateResult :=
  match net.findClosestPeers request.address (candidatesPerPool * 2) with
  | .error _ => []
  | .ok closest =>
    let remotePeers := supplementPeers connectedPeers closest
    if remotePeers.length < candidatesPerPool then []
    else remotePeers.zipIdx.map (requestCandidate C net request)

/-- The peer and the candidate, where it passes the checks. -/
def acceptedOf : CandidateResult → Option (PeerId × MerklePaymentCandidateNode)
  | (peerId, .ok c) => if Accepts C request c then some (peerId, c) else none
  | (_, .error _) => none

def accepted (answers : List CandidateResult) : List (PeerId × MerklePaymentCandidateNode) :=
  answers.filterMap (acceptedOf C request)

/-! ## What a pool is to be -/

/-- The candidates of so many different nodes. -/
structure SixteenNodes (answers : List CandidateResult) (pool : List MerklePaymentCandidateNode) :
    Prop where
  length : pool.length = candidatesPerPool
  returned : ∃ peers : List PeerId, peers.Nodup ∧
    List.Forall₂ (fun peer c => (peer, .ok c) ∈ answers) peers pool
  valid : ∀ c ∈ pool, Accepts C request c
  keys : (pool.map MerklePaymentCandidateNode.pubKey).Nodup

/-- A pool has the candidates of different nodes, and there is one if enough peers answer. -/
structure PoolSound (turn : PoolTurn) : Prop where
  nodes : ∀ pool, getMerkleCandidatePool C turn request = .ok pool →
    SixteenNodes C request (candidateAnswers C request turn.net turn.connectedPeers) pool
  enough : candidatesPerPool ≤
      (accepted C request (candidateAnswers C request turn.net turn.connectedPeers)).length →
    ∃ pool, getMerkleCandidatePool C turn request = .ok pool

/-- No two answers that pass the checks are of one peer or carry one key. -/
def Unrepeated (answers : List CandidateResult) : Prop :=
  ((accepted C request answers).map Prod.fst).Nodup ∧
    ((accepted C request answers).map fun a => a.2.pubKey).Nodup

/-! ## The collection -/

section Collection

variable {C request} {candidates : List MerklePaymentCandidateNode} {failures : List String}

theorem mem_accepted {answers : List CandidateResult} {a : PeerId × MerklePaymentCandidateNode} :
    a ∈ accepted C request answers ↔ (a.1, .ok a.2) ∈ answers ∧ Accepts C request a.2 := by
  rw [accepted, List.mem_filterMap]
  constructor
  · rintro ⟨⟨peerId, e | c⟩, hmem, ha⟩
    · cases ha
    · simp only [acceptedOf] at ha
      split_ifs at ha with haccepts
      obtain rfl := Option.some.inj ha
      exact ⟨hmem, haccepts⟩
  · rintro ⟨hmem, haccepts⟩
    exact ⟨_, hmem, if_pos haccepts⟩

theorem finishCandidates_of_lt (h : candidates.length < candidatesPerPool) :
    ∃ e, finishCandidates candidates failures = .error e := by
  rw [finishCandidates, if_pos h]
  exact ⟨_, rfl⟩

theorem finishCandidates_of_le (h : candidatesPerPool ≤ candidates.length) :
    finishCandidates candidates failures = .ok (candidates.take candidatesPerPool) := by
  rw [finishCandidates, if_neg (not_lt.2 h)]
  exact if_pos (by rw [List.length_take, min_eq_left h])

theorem collectValidatedCandidates_rejects {peerId : PeerId} {c : MerklePaymentCandidateNode}
    {results : List CandidateResult} (h : ¬ Accepts C request c) :
    ∃ failures', collectValidatedCandidates C request.merklePaymentTimestamp request.dataType
        candidates failures ((peerId, .ok c) :: results) =
      collectValidatedCandidates C request.merklePaymentTimestamp request.dataType candidates
        failures' results := by
  rw [collectValidatedCandidates]
  by_cases hsig : verifyMerkleCandidateSignature C.toEvm c = true
  · rw [if_neg (not_not.2 hsig)]
    by_cases hts : c.merklePaymentTimestamp = request.merklePaymentTimestamp.toNat
    · rw [if_neg (not_not.2 hts), if_pos fun htype => h ⟨hsig, hts, htype⟩]
      exact ⟨_, rfl⟩
    · rw [if_pos hts]
      exact ⟨_, rfl⟩
  · rw [if_pos hsig]
    exact ⟨_, rfl⟩

theorem collectValidatedCandidates_accepts {peerId : PeerId} {c : MerklePaymentCandidateNode}
    {results : List CandidateResult} (h : Accepts C request c) :
    collectValidatedCandidates C request.merklePaymentTimestamp request.dataType candidates failures
        ((peerId, .ok c) :: results) =
      if candidatesPerPool ≤ candidates.length + 1 then
        finishCandidates (candidates ++ [c]) failures
      else
        collectValidatedCandidates C request.merklePaymentTimestamp request.dataType
          (candidates ++ [c]) failures results := by
  rw [collectValidatedCandidates, if_neg (not_not.2 h.1), if_neg (not_not.2 h.2.1),
    if_neg (not_not.2 h.2.2)]

/-- The first answers that pass the checks, if they are enough. -/
theorem collectValidatedCandidates_spec (results : List CandidateResult)
    (h : candidates.length < candidatesPerPool) :
    (∃ e, collectValidatedCandidates C request.merklePaymentTimestamp request.dataType candidates
        failures results = .error e) ∧
        candidates.length + (accepted C request results).length < candidatesPerPool ∨
      collectValidatedCandidates C request.merklePaymentTimestamp request.dataType candidates
          failures results =
        .ok ((candidates ++ (accepted C request results).map Prod.snd).take candidatesPerPool) ∧
        candidatesPerPool ≤ candidates.length + (accepted C request results).length := by
  induction results generalizing candidates failures with
  | nil => exact Or.inl ⟨finishCandidates_of_lt h, by simpa [accepted] using h⟩
  | cons result results ih =>
    obtain ⟨peerId, e | c⟩ := result
    · have hskip : accepted C request ((peerId, .error e) :: results) =
          accepted C request results := List.filterMap_cons_none rfl
      rw [hskip]
      exact ih h
    · by_cases haccepts : Accepts C request c
      · have htake : accepted C request ((peerId, .ok c) :: results) =
            (peerId, c) :: accepted C request results :=
          List.filterMap_cons_some (if_pos haccepts)
        have hlength : (candidates ++ [c]).length = candidates.length + 1 := List.length_append
        have hsplit : candidates ++ c :: (accepted C request results).map Prod.snd =
            (candidates ++ [c]) ++ (accepted C request results).map Prod.snd :=
          List.append_cons candidates c _
        rw [htake, collectValidatedCandidates_accepts haccepts, List.length_cons, List.map_cons,
          hsplit, Nat.add_left_comm, Nat.add_comm _ (candidates.length + 1), ← hlength]
        split_ifs with hfull
        · refine Or.inr ⟨?_, by omega⟩
          rw [finishCandidates_of_le hfull, List.take_append_of_le_length hfull]
        · exact ih (by omega)
      · have hskip : accepted C request ((peerId, .ok c) :: results) =
            accepted C request results := List.filterMap_cons_none (if_neg haccepts)
        obtain ⟨failures', hcollect⟩ := collectValidatedCandidates_rejects haccepts
        rw [hskip, hcollect]
        exact ih h

theorem getMerkleCandidatePool_spec (C : MerkleEvm) (request : MerkleCandidateQuoteRequest)
    (turn : PoolTurn) :
    (∃ e, getMerkleCandidatePool C turn request = .error e) ∧
        candidateAnswers C request turn.net turn.connectedPeers = [] ∨
      getMerkleCandidatePool C turn request =
        collectValidatedCandidates C request.merklePaymentTimestamp request.dataType [] []
          (turn.order (candidateAnswers C request turn.net turn.connectedPeers)) := by
  rw [getMerkleCandidatePool, candidateAnswers]
  cases turn.net.findClosestPeers request.address (candidatesPerPool * 2) with
  | error e => exact Or.inl ⟨⟨e, rfl⟩, rfl⟩
  | ok closest =>
    by_cases hfew : (supplementPeers turn.connectedPeers closest).length < candidatesPerPool
    · refine Or.inl ⟨⟨_, if_pos hfew⟩, if_pos hfew⟩
    · refine Or.inr ?_
      simp only [if_neg hfew]
      exact if_neg hfew

/-- The pool is made of the first answers to complete that pass the checks. -/
theorem pool_cases (C : MerkleEvm) (request : MerkleCandidateQuoteRequest) (turn : PoolTurn) :
    (∃ e, getMerkleCandidatePool C turn request = .error e) ∧
        (accepted C request (candidateAnswers C request turn.net turn.connectedPeers)).length <
          candidatesPerPool ∨
      getMerkleCandidatePool C turn request = .ok (((accepted C request (turn.order
        (candidateAnswers C request turn.net turn.connectedPeers))).map Prod.snd).take
          candidatesPerPool) ∧
        candidatesPerPool ≤
          (accepted C request (candidateAnswers C request turn.net turn.connectedPeers)).length := by
  set answers := candidateAnswers C request turn.net turn.connectedPeers with hanswers
  have hperm : (accepted C request (turn.order answers)).Perm (accepted C request answers) :=
    (turn.order.perm answers).filterMap _
  rcases getMerkleCandidatePool_spec C request turn with ⟨herror, hnone⟩ | hcollect
  · refine Or.inl ⟨herror, ?_⟩
    rw [hanswers, hnone]
    exact Nat.zero_lt_succ _
  · rw [hcollect, ← hperm.length_eq]
    have hspec := @collectValidatedCandidates_spec C request [] [] (turn.order answers) (by decide)
    rcases hspec with ⟨herror, hfew⟩ | ⟨hok, hmany⟩
    · exact Or.inl ⟨herror, by simpa using hfew⟩
    · exact Or.inr ⟨hok, by simpa using hmany⟩

/-! ## Whose pool it is -/

variable {answers answers' : List CandidateResult}

theorem sixteenNodes_take (hperm : answers'.Perm answers)
    (hmany : candidatesPerPool ≤ (accepted C request answers').length)
    (h : Unrepeated C request answers) :
    SixteenNodes C request answers
      (((accepted C request answers').map Prod.snd).take candidatesPerPool) := by
  have haccepted : (accepted C request answers').Perm (accepted C request answers) :=
    hperm.filterMap _
  have hmem : ∀ a ∈ (accepted C request answers').take candidatesPerPool,
      (a.1, .ok a.2) ∈ answers ∧ Accepts C request a.2 := fun a ha =>
    mem_accepted.1 (haccepted.mem_iff.1 (List.mem_of_mem_take ha))
  rw [← List.map_take]
  refine ⟨?_, ⟨((accepted C request answers').take candidatesPerPool).map Prod.fst, ?_, ?_⟩, ?_, ?_⟩
  · rw [List.length_map, List.length_take, min_eq_left hmany]
  · rw [List.map_take]
    exact ((haccepted.map Prod.fst).nodup_iff.2 h.1).take
  · rw [List.forall₂_map_left_iff, List.forall₂_map_right_iff, List.forall₂_same]
    exact fun a ha => (hmem a ha).1
  · intro c hc
    obtain ⟨a, ha, rfl⟩ := List.mem_map.1 hc
    exact (hmem a ha).2
  · rw [List.map_map, List.map_take]
    exact ((haccepted.map fun a => a.2.pubKey).nodup_iff.2 h.2).take

theorem poolSound_of_unrepeated (turn : PoolTurn)
    (h : Unrepeated C request (candidateAnswers C request turn.net turn.connectedPeers)) :
    PoolSound C request turn := by
  have hperm := turn.order.perm (candidateAnswers C request turn.net turn.connectedPeers)
  rcases pool_cases C request turn with ⟨⟨e, herror⟩, hfew⟩ | ⟨hok, hmany⟩
  · refine ⟨fun pool hpool => ?_, fun hmany => absurd hmany (not_le.2 hfew)⟩
    rw [herror] at hpool
    cases hpool
  · refine ⟨fun pool hpool => ?_, fun _ => ⟨_, hok⟩⟩
    rw [hok] at hpool
    obtain rfl := Except.ok.inj hpool
    refine sixteenNodes_take hperm ?_ h
    exact hmany.trans_eq (hperm.filterMap (acceptedOf C request)).length_eq.symm

theorem poolSound_of_few (turn : PoolTurn)
    (h : (accepted C request (candidateAnswers C request turn.net turn.connectedPeers)).length <
      candidatesPerPool) : PoolSound C request turn := by
  rcases pool_cases C request turn with ⟨⟨e, herror⟩, -⟩ | ⟨-, hmany⟩
  · refine ⟨fun pool hpool => ?_, fun hmany => absurd hmany (not_le.2 h)⟩
    rw [herror] at hpool
    cases hpool
  · exact absurd hmany (not_le.2 h)

/-- Two answers that pass the checks may be the first to complete. -/
theorem sixteenNodes_of_sublist {net : Network} {connectedPeers : List PeerId}
    {a b : PeerId × MerklePaymentCandidateNode}
    (h : ∀ order, PoolSound C request ⟨net, connectedPeers, order⟩)
    (hmany : candidatesPerPool ≤
      (accepted C request (candidateAnswers C request net connectedPeers)).length)
    (hab : [a, b].Sublist (accepted C request (candidateAnswers C request net connectedPeers))) :
    ∃ rest, SixteenNodes C request (candidateAnswers C request net connectedPeers)
      (a.2 :: b.2 :: rest) := by
  obtain ⟨first, hfirst, heq⟩ := List.sublist_filterMap_iff.1 hab
  obtain ⟨order, rest, horder⟩ := Unordered.exists_order_append hfirst
  rcases pool_cases C request ⟨net, connectedPeers, order⟩ with ⟨-, hfew⟩ | ⟨hok, -⟩
  · exact absurd hmany (not_le.2 hfew)
  · have hsplit : accepted C request (order (candidateAnswers C request net connectedPeers)) =
        [a, b] ++ accepted C request rest := by
      rw [horder, accepted, List.filterMap_append, ← heq]
      rfl
    have hpool := (h order).nodes _ hok
    simp only [hsplit] at hpool
    exact ⟨_, hpool⟩

theorem unrepeated_of_poolSound {net : Network} {connectedPeers : List PeerId}
    (h : ∀ order, PoolSound C request ⟨net, connectedPeers, order⟩)
    (hmany : candidatesPerPool ≤
      (accepted C request (candidateAnswers C request net connectedPeers)).length) :
    Unrepeated C request (candidateAnswers C request net connectedPeers) := by
  have hkeys : ((accepted C request (candidateAnswers C request net connectedPeers)).map
      fun a => a.2.pubKey).Nodup := by
    rw [List.Nodup, List.pairwise_map, List.pairwise_iff_forall_sublist]
    intro a b hab
    obtain ⟨rest, hpool⟩ := sixteenNodes_of_sublist h hmany hab
    have hkeys := hpool.keys
    rw [List.map_cons, List.nodup_cons] at hkeys
    exact fun heq => hkeys.1 (List.mem_map.2 ⟨b.2, List.mem_cons_self, heq.symm⟩)
  refine ⟨?_, hkeys⟩
  rw [List.Nodup, List.pairwise_map, List.pairwise_iff_forall_sublist]
  intro a b hab
  obtain ⟨rest, hpool⟩ := sixteenNodes_of_sublist h hmany hab
  obtain ⟨peers, hpeers, hreturned⟩ := hpool.returned
  obtain ⟨peerA, others, ha, hothers, rfl⟩ := List.forall₂_cons_right_iff.1 hreturned
  obtain ⟨peerB, others, hb, -, rfl⟩ := List.forall₂_cons_right_iff.1 hothers
  -- the candidates of the pool are told apart by their keys, so these are the peers of `a` and `b`
  have hsame : ∀ peer, ∀ c ∈ [a, b],
      (peer, .ok c.2) ∈ candidateAnswers C request net connectedPeers → peer = c.1 := by
    intro peer c hc hanswer
    have hc := hab.subset hc
    have hpeer : (peer, c.2) ∈ accepted C request (candidateAnswers C request net connectedPeers) :=
      mem_accepted.2 ⟨hanswer, (mem_accepted.1 hc).2⟩
    exact congrArg Prod.fst (List.inj_on_of_nodup_map hkeys hpeer hc rfl)
  rw [← hsame peerA a (by simp) ha, ← hsame peerB b (by simp) hb]
  intro heq
  rw [heq] at hpeers
  simp at hpeers

end Collection

/-- **A pool has sixteen different nodes, whatever the order of the answers, exactly if there are
    fewer answers that pass the checks, or no two of them are of one peer or carry one key.** -/
theorem pool_sound_iff (C : MerkleEvm) (request : MerkleCandidateQuoteRequest) (net : Network)
    (connectedPeers : List PeerId) :
    (∀ order, PoolSound C request ⟨net, connectedPeers, order⟩) ↔
      (accepted C request (candidateAnswers C request net connectedPeers)).length <
          candidatesPerPool ∨
        Unrepeated C request (candidateAnswers C request net connectedPeers) := by
  constructor
  · intro h
    exact (lt_or_ge _ _).imp_right (unrepeated_of_poolSound h)
  · rintro (h | h) order
    · exact poolSound_of_few _ h
    · exact poolSound_of_unrepeated _ h

/-- Sixteen peers, of which each returns the candidate of the first. -/
def replayedNet : Network :=
  ⟨examplePeers (List.replicate 16 (.merkleCandidateQuoteResponse (.success [0]))), examplePeer 99,
    fun _ => 9⟩

theorem not_poolSound : ¬ PoolSound exampleMerkleEvm ⟨exampleContent, dataTypeChunk, 0, 1000⟩
    ⟨replayedNet, [], .asStarted⟩ := by
  intro h
  have hpool : (getMerkleCandidatePool exampleMerkleEvm ⟨replayedNet, [], .asStarted⟩
      ⟨exampleContent, dataTypeChunk, 0, 1000⟩).toOption.any fun pool =>
        ¬ (pool.map MerklePaymentCandidateNode.pubKey).Nodup := by
    decide +kernel
  cases hget : getMerkleCandidatePool exampleMerkleEvm ⟨replayedNet, [], .asStarted⟩
      ⟨exampleContent, dataTypeChunk, 0, 1000⟩ with
  | error e =>
    rw [hget] at hpool
    cases hpool
  | ok pool =>
    rw [hget] at hpool
    exact of_decide_eq_true hpool (h.nodes pool hget).keys

end Autonomi.AntClient
