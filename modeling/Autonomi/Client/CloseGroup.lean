/-
  Replication to a close group: the same loop with a log of the peers that are
  asked and of their answers.
-/
import Autonomi.Client.PartlyStored

namespace Autonomi.AntClient

open Lib AntNode

variable (C : ClientEvm)

/-- What happens between the client and the close group. -/
inductive PutEvent where
  | sent (peer : PeerId × ℕ)
  | answered (peer : PeerId × ℕ) (accepted : Bool)
  deriving DecidableEq

/-- The peers that have been sent a PUT, in that order. -/
def sentPeers (log : List PutEvent) : List (PeerId × ℕ) :=
  log.filterMap fun
    | .sent peer => some peer
    | .answered _ _ => none

/-- The peers that have answered with this outcome. -/
def answeredPeers (log : List PutEvent) (outcome : Bool) : List (PeerId × ℕ) :=
  log.filterMap fun
    | .sent _ => none
    | .answered peer accepted => if accepted = outcome then some peer else none

/-- `putLoop` with the log. -/
def putLoopLogged (address : XorName) (put : PeerId × ℕ → Except Error XorName)
    (order : ℕ → Unordered (PeerId × ℕ)) : ℕ → PutProgress → List PutEvent →
    List PutEvent × PutProgress × Option (Except Error XorName)
  | 0, s, log => (log, s, none)
  | turns + 1, s, log =>
    match order turns s.inFlight with
    | [] =>
      let failed := "; ".intercalate s.failures
      (log, s, some (.error (.insufficientPeers
        s!"Stored on {s.successCount} peers, need {closeGroupMajority}. Failures: [{failed}]")))
    | peer :: inFlight =>
      match put peer with
      | .ok _ =>
        let s := { s with inFlight := inFlight, successCount := s.successCount + 1 }
        let log := log ++ [.answered peer true]
        if closeGroupMajority ≤ s.successCount then (log, s, some (.ok address))
        else putLoopLogged address put order turns s log
      | .error e =>
        putLoopLogged address put order turns
          { s with
            inFlight := inFlight ++ s.fallback.take 1
            fallback := s.fallback.drop 1
            failures := s.failures ++ [s!"{C.displayPeerId peer.1}: {e.text}"] }
          (log ++ .answered peer false :: (s.fallback.take 1).map .sent)

/-- `chunkPutToCloseGroup` with its log. -/
def chunkPutLogged (P : Primitives) (client : Client) (net : Network)
    (order : ℕ → Unordered (PeerId × ℕ)) (turns : ℕ) (content proof : Bytes) (peers : List PeerId) :
    List PutEvent × PutProgress × Option (Except Error XorName) :=
  putLoopLogged C (computeAddress P content) (chunkPutWithProof P client net content proof) order
    turns (.start peers.zipIdx) ((PutProgress.start peers.zipIdx).inFlight.map .sent)

section Log

@[simp] theorem sentPeers_append (log log' : List PutEvent) :
    sentPeers (log ++ log') = sentPeers log ++ sentPeers log' := List.filterMap_append

@[simp] theorem answeredPeers_append (log log' : List PutEvent) (outcome : Bool) :
    answeredPeers (log ++ log') outcome = answeredPeers log outcome ++ answeredPeers log' outcome :=
  List.filterMap_append

@[simp] theorem sentPeers_answered (peer : PeerId × ℕ) (accepted : Bool) (log : List PutEvent) :
    sentPeers (.answered peer accepted :: log) = sentPeers log := rfl

@[simp] theorem sentPeers_map_sent (peers : List (PeerId × ℕ)) :
    sentPeers (peers.map .sent) = peers := by
  rw [sentPeers, List.filterMap_map]
  exact List.filterMap_some

@[simp] theorem answeredPeers_answered (peer : PeerId × ℕ) (accepted outcome : Bool)
    (log : List PutEvent) : answeredPeers (.answered peer accepted :: log) outcome =
      if accepted = outcome then peer :: answeredPeers log outcome
      else answeredPeers log outcome := by
  cases accepted <;> cases outcome <;> rfl

@[simp] theorem answeredPeers_map_sent (peers : List (PeerId × ℕ)) (outcome : Bool) :
    answeredPeers (peers.map .sent) outcome = [] := by
  rw [answeredPeers, List.filterMap_map]
  exact List.filterMap_eq_nil_iff.2 fun _ _ => rfl

@[simp] theorem sentPeers_nil : sentPeers [] = [] := rfl

@[simp] theorem answeredPeers_nil (outcome : Bool) : answeredPeers [] outcome = [] := rfl

end Log

variable {C} {address : XorName} {put : PeerId × ℕ → Except Error XorName}
  {order : ℕ → Unordered (PeerId × ℕ)}

/-- The log does not change what the loop does. -/
theorem putLoopLogged_snd (turns : ℕ) (s : PutProgress) (log : List PutEvent) :
    (putLoopLogged C address put order turns s log).2 = putLoop C address put order turns s := by
  induction turns generalizing s log with
  | zero => rfl
  | succ turns ih =>
    rw [putLoopLogged, putLoop]
    rcases order turns s.inFlight with _ | ⟨peer, inFlight⟩
    · rfl
    · rcases hput : put peer with e | addr
      · simp only [hput]
        exact ih _ _
      · simp only [hput]
        split_ifs
        · rfl
        · exact ih _ _

theorem chunkPutLogged_snd (C : ClientEvm) (P : Primitives) (client : Client) (net : Network)
    (order : ℕ → Unordered (PeerId × ℕ)) (turns : ℕ) (content proof : Bytes)
    (peers : List PeerId) :
    (chunkPutLogged C P client net order turns content proof peers).2 =
      chunkPutToCloseGroup P C client net order turns content proof peers :=
  putLoopLogged_snd _ _ _

/-! ## The invariant of the log -/

/-- The log tells the state of the loop: who is still to be asked and who is to answer, and at most
    one more peer than are needed has been asked for every failure. -/
structure Replicating (put : PeerId × ℕ → Except Error XorName) (peers : List (PeerId × ℕ))
    (s : PutProgress) (log : List PutEvent) : Prop where
  sent : sentPeers log ++ s.fallback = peers
  answered : (sentPeers log).Perm
    (answeredPeers log true ++ answeredPeers log false ++ s.inFlight)
  accepted : ∀ peer ∈ answeredPeers log true, accepts put peer = true
  refused : ∀ peer ∈ answeredPeers log false, accepts put peer = false
  successes : (answeredPeers log true).length = s.successCount
  bounded : (sentPeers log).length ≤ closeGroupMajority + (answeredPeers log false).length

namespace Replicating

variable {peers inFlight : List (PeerId × ℕ)} {s : PutProgress} {log : List PutEvent}
  {peer : PeerId × ℕ}

theorem start (peers : List (PeerId × ℕ)) : Replicating put peers (.start peers)
    ((PutProgress.start peers).inFlight.map .sent) where
  sent := by simp only [PutProgress.start, sentPeers_map_sent, List.take_append_drop]
  answered := by
    simp only [PutProgress.start, sentPeers_map_sent, answeredPeers_map_sent, List.nil_append]
    exact .refl _
  accepted := by simp only [PutProgress.start, answeredPeers_map_sent, List.not_mem_nil,
    IsEmpty.forall_iff, implies_true]
  refused := by simp only [PutProgress.start, answeredPeers_map_sent, List.not_mem_nil,
    IsEmpty.forall_iff, implies_true]
  successes := by simp only [PutProgress.start, answeredPeers_map_sent, List.length_nil]
  bounded := by
    simp only [PutProgress.start, sentPeers_map_sent, answeredPeers_map_sent, List.length_nil,
      List.length_take]
    omega

theorem success (h : Replicating put peers s log) (hperm : (peer :: inFlight).Perm s.inFlight)
    (hput : accepts put peer = true) : Replicating put peers
      { s with inFlight := inFlight, successCount := s.successCount + 1 }
      (log ++ [.answered peer true]) where
  sent := by simpa using h.sent
  answered := by
    simp only [sentPeers_append, sentPeers_answered, sentPeers_nil, List.append_nil,
      answeredPeers_append, answeredPeers_answered, answeredPeers_nil, if_true, Bool.true_eq_false,
      if_false]
    refine h.answered.trans ?_
    have hmove : (answeredPeers log true ++ answeredPeers log false ++ s.inFlight).Perm
        (answeredPeers log true ++ answeredPeers log false ++ (peer :: inFlight)) :=
      hperm.symm.append_left _
    refine hmove.trans ?_
    simp only [List.append_assoc, List.singleton_append]
    exact List.perm_middle.append_left _
  accepted := by
    simp only [answeredPeers_append, answeredPeers_answered, answeredPeers_nil, if_true]
    exact forall_mem_append h.accepted hput
  refused := by simpa using h.refused
  successes := by simpa using h.successes
  bounded := by simpa using h.bounded

theorem failure (h : Replicating put peers s log) (hperm : (peer :: inFlight).Perm s.inFlight)
    (hput : accepts put peer = false) (failures : List String) : Replicating put peers
      { s with
        inFlight := inFlight ++ s.fallback.take 1
        fallback := s.fallback.drop 1
        failures := failures }
      (log ++ .answered peer false :: (s.fallback.take 1).map .sent) where
  sent := by
    simp only [sentPeers_append, sentPeers_answered, sentPeers_map_sent, List.append_assoc,
      List.take_append_drop]
    exact h.sent
  answered := by
    simp only [sentPeers_append, sentPeers_answered, sentPeers_map_sent, answeredPeers_append,
      answeredPeers_answered, answeredPeers_map_sent, if_true, Bool.false_eq_true, if_false,
      List.append_nil]
    refine (h.answered.append_right _).trans ?_
    have hmove : (answeredPeers log true ++ answeredPeers log false ++ s.inFlight).Perm
        (answeredPeers log true ++ answeredPeers log false ++ (peer :: inFlight)) :=
      hperm.symm.append_left _
    refine (hmove.append_right _).trans ?_
    simp
  accepted := by
    simp only [answeredPeers_append, answeredPeers_answered, answeredPeers_map_sent,
      Bool.false_eq_true, if_false, List.append_nil]
    exact h.accepted
  refused := by
    simp only [answeredPeers_append, answeredPeers_answered, answeredPeers_map_sent, if_true]
    exact forall_mem_append h.refused hput
  successes := by
    simp only [answeredPeers_append, answeredPeers_answered, answeredPeers_map_sent,
      Bool.false_eq_true, if_false, List.append_nil]
    exact h.successes
  bounded := by
    have hle := h.bounded
    simp only [sentPeers_append, sentPeers_answered, sentPeers_map_sent, answeredPeers_append,
      answeredPeers_answered, answeredPeers_map_sent, if_true, List.length_append, List.length_take,
      List.length_cons, List.length_nil]
    omega

/-- The successes are peers that would accept. -/
theorem le_countP (h : Replicating put peers s log) :
    s.successCount ≤ peers.countP (accepts put) := by
  have hall : (answeredPeers log true).countP (accepts put) = s.successCount := by
    rw [← h.successes]
    exact List.countP_eq_length.2 h.accepted
  rw [← h.sent, List.countP_append, h.answered.countP_eq, List.countP_append, List.countP_append]
  omega

/-- When all have answered, they are all of them. -/
theorem countP_eq (h : Replicating put peers s log) (hflight : s.inFlight = [])
    (hfallback : s.fallback = []) : peers.countP (accepts put) = s.successCount := by
  have hall : (answeredPeers log true).countP (accepts put) = s.successCount := by
    rw [← h.successes]
    exact List.countP_eq_length.2 h.accepted
  have hnone : (answeredPeers log false).countP (accepts put) = 0 := by
    refine List.countP_eq_zero.2 fun peer hpeer => ?_
    rw [h.refused peer hpeer]
    exact Bool.false_ne_true
  rw [← h.sent, hfallback, List.append_nil, h.answered.countP_eq, hflight, List.append_nil,
    List.countP_append, hall, hnone, Nat.add_zero]

end Replicating

/-- The loop has returned: with enough successes, or when no peer is left. -/
inductive Returned (address : XorName) (s : PutProgress) : Except Error XorName → Prop
  | stored (hcount : closeGroupMajority ≤ s.successCount) : Returned address s (.ok address)
  | exhausted (e : Error) (hflight : s.inFlight = []) (hfallback : s.fallback = [])
      (hcount : s.successCount < closeGroupMajority) : Returned address s (.error e)

/-- The loop keeps the invariant of the log until it returns. -/
theorem putLoopLogged_returns (C : ClientEvm) {address : XorName}
    (order : ℕ → Unordered (PeerId × ℕ)) {peers : List (PeerId × ℕ)} {turns : ℕ} {s : PutProgress}
    {log : List PutEvent} (h : Replicating put peers s log) (hgoing : s.Going)
    (hturns : s.inFlight.length + s.fallback.length < turns) :
    ∃ log' s' r, putLoopLogged C address put order turns s log = (log', s', some r) ∧
      Replicating put peers s' log' ∧ Returned address s' r := by
  induction turns generalizing s log with
  | zero => exact absurd hturns (Nat.not_lt_zero _)
  | succ turns ih =>
    obtain ⟨hcount, hflight⟩ := hgoing
    have hperm := (order turns).perm s.inFlight
    rw [putLoopLogged]
    rcases hnext : order turns s.inFlight with _ | ⟨peer, inFlight⟩
    · rw [hnext] at hperm
      have hnil : s.inFlight = [] := hperm.symm.eq_nil
      refine ⟨_, _, _, rfl, h, .exhausted _ hnil ?_ hcount⟩
      refine hflight.elim id fun hneeded => ?_
      rw [hnil, List.length_nil] at hneeded
      omega
    · rw [hnext] at hperm
      have hlen : inFlight.length + 1 = s.inFlight.length := hperm.length_eq
      rcases hput : put peer with e | addr
      · have hrefused : accepts put peer = false := by simp [accepts, hput, Except.toOption]
        simp only [hput]
        refine ih (h.failure hperm hrefused _) ⟨hcount, ?_⟩ ?_
        · rcases hflight with hnone | hneeded
          · exact .inl (by simp [hnone])
          · by_cases hnil : s.fallback = []
            · exact .inl (by simp [hnil])
            · have := List.length_pos_iff.2 hnil
              refine .inr ?_
              simp only [List.length_append, List.length_take]
              omega
        · simp only [List.length_append, List.length_take, List.length_drop]
          omega
      · have haccepted : accepts put peer = true := by simp [accepts, hput, Except.toOption]
        simp only [hput]
        have hnext := h.success hperm haccepted
        split_ifs with hmajority
        · exact ⟨_, _, _, rfl, hnext, .stored hmajority⟩
        · refine ih hnext ⟨Nat.lt_of_not_le hmajority, hflight.imp id fun hneeded => ?_⟩ ?_
          · simp only
            omega
          · simp only
            omega

/-- **Replication to the close group.** -/
theorem chunk_put_replicates (C : ClientEvm) (P : Primitives) (client : Client) (net : Network)
    (order : ℕ → Unordered (PeerId × ℕ)) (content proof : Bytes) {peers : List PeerId} {turns : ℕ}
    (hpeers : peers.Nodup) (hturns : turnsOf peers ≤ turns) :
    ∃ log s r, chunkPutLogged C P client net order turns content proof peers = (log, s, some r) ∧
      chunkPutToCloseGroup P C client net order turns content proof peers = (s, some r) ∧
      (r = .ok (computeAddress P content) ↔ closeGroupMajority ≤
        peers.zipIdx.countP (accepts (chunkPutWithProof P client net content proof))) ∧
      ((sentPeers log).map Prod.fst).Nodup ∧
      (∀ addr, r = .ok addr → closeGroupMajority ≤ (answeredPeers log true).length) ∧
      (∀ e, r = .error e →
        (answeredPeers log true ++ answeredPeers log false).Perm peers.zipIdx) ∧
      (sentPeers log).length ≤ closeGroupMajority + (answeredPeers log false).length := by
  have hlen : (PutProgress.start peers.zipIdx).inFlight.length +
      (PutProgress.start peers.zipIdx).fallback.length < turns := by
    simp only [PutProgress.start, List.length_take, List.length_drop, List.length_zipIdx]
    rw [turnsOf] at hturns
    omega
  obtain ⟨log, s, r, hrun, h, hreturned⟩ := putLoopLogged_returns C order
    (.start peers.zipIdx) (PutProgress.going_start _) hlen
  have hsnd := chunkPutLogged_snd C P client net order turns content proof peers
  rw [chunkPutLogged, hrun] at hsnd
  refine ⟨log, s, r, hrun, hsnd.symm, ?_, ?_, ?_, ?_, h.bounded⟩
  · cases hreturned with
    | stored hcount => exact iff_of_true rfl (hcount.trans h.le_countP)
    | exhausted e hflight hfallback hcount =>
      rw [h.countP_eq hflight hfallback]
      exact iff_of_false (by simp) (by omega)
  · have hsent : (sentPeers log).map Prod.fst <+: peers := by
      have hmap := congrArg (List.map Prod.fst) h.sent
      rw [List.map_append, List.zipIdx_map_fst] at hmap
      exact ⟨_, hmap⟩
    exact hpeers.sublist hsent.sublist
  · rintro addr rfl
    cases hreturned with
    | stored hcount => exact h.successes ▸ hcount
  · rintro e rfl
    cases hreturned with
    | exhausted _ hflight hfallback _ =>
      have hperm := h.answered
      have hsent := h.sent
      rw [hflight, List.append_nil] at hperm
      rw [hfallback, List.append_nil] at hsent
      exact hsent ▸ hperm.symm

/-- Five peers that accept, and the last one of those in flight answers first. -/
theorem chunk_put_replicates_five : ∃ log s,
    chunkPutLogged exampleClientEvm clear exampleClient examplePutNet (fun _ => .lastFirst) 6 [5]
      exampleProofBytes exampleGroup = (log, s, some (.ok (computeAddress clear [5]))) ∧
    (sentPeers log).length ≤ closeGroupMajority + (answeredPeers log false).length := by
  obtain ⟨log, s, r, hrun, -, hr, -, -, -, hbounded⟩ := chunk_put_replicates exampleClientEvm clear
    exampleClient examplePutNet (fun _ => .lastFirst) [5] exampleProofBytes
    (by decide : exampleGroup.Nodup) (by decide : turnsOf exampleGroup ≤ 6)
  obtain rfl := hr.2 (by decide +kernel)
  exact ⟨log, s, hrun, hbounded⟩

end Autonomi.AntClient
