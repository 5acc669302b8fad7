/-
  Storing a chunk in its close group (`ant-core/src/data/client/chunk.rs`).
-/
import Autonomi.Client.Quotes

namespace Autonomi.AntClient

open Lib AntNode

variable (P : Primitives) (C : ClientEvm) (client : Client)

def putHandler (addrHex : String) : ChunkMessageBody → Option (Except Error XorName)
  | .putResponse (.success addr) => some (.ok addr)
  | .putResponse (.alreadyExists addr) => some (.ok addr)
  | .putResponse (.paymentRequired message) =>
    some (.error (.payment s!"Payment required: {message}"))
  | .putResponse (.error e) =>
    some (.error (.protocol s!"Remote PUT error for {addrHex}: {e.text}"))
  | _ => none

/-- The request to the peer that is asked in this turn. -/
def chunkPutWithProof (net : Network) (content proof : Bytes) (peer : PeerId × ℕ) :
    Except Error XorName :=
  let address := computeAddress P content
  let requestId := net.requestIds peer.2
  let message : ChunkMessage := ⟨requestId, .putRequest ⟨address, content, some proof⟩⟩
  sendAndAwaitChunkResponse net.p2p peer.2 peer.1 message.encode requestId
    (putHandler (hexEncode address)) (fun e => .network s!"Failed to send PUT to peer: {e}")
    (.timeout s!"Timeout waiting for store response after {client.timeoutSecs}s")

/-- The PUTs that are in flight, the peers to fall back to, and what has come of the others. -/
structure PutProgress where
  inFlight : List (PeerId × ℕ)
  fallback : List (PeerId × ℕ)
  successCount : ℕ
  failures : List String

def PutProgress.start (peers : List (PeerId × ℕ)) : PutProgress :=
  ⟨peers.take closeGroupMajority, peers.drop closeGroupMajority, 0, []⟩

/-- The loop over the answers, as they come, for so many turns: no result while it goes on. -/
def putLoop (address : XorName) (put : PeerId × ℕ → Except Error XorName)
    (order : ℕ → Unordered (PeerId × ℕ)) :
    ℕ → PutProgress → PutProgress × Option (Except Error XorName)
  | 0, s => (s, none)
  | turns + 1, s =>
    match order turns s.inFlight with
    | [] =>
      let failed := "; ".intercalate s.failures
      (s, some (.error (.insufficientPeers
        s!"Stored on {s.successCount} peers, need {closeGroupMajority}. Failures: [{failed}]")))
    | peer :: inFlight =>
      match put peer with
      | .ok _ =>
        let s := { s with inFlight := inFlight, successCount := s.successCount + 1 }
        if closeGroupMajority ≤ s.successCount then (s, some (.ok address))
        else putLoop address put order turns s
      | .error e =>
        putLoop address put order turns
          { s with
            inFlight := inFlight ++ s.fallback.take 1
            fallback := s.fallback.drop 1
            failures := s.failures ++ [s!"{C.displayPeerId peer.1}: {e.text}"] }

/-- Enough turns for every peer to answer. -/
def turnsOf (peers : List PeerId) : ℕ := peers.length + 1

def chunkPutToCloseGroup (net : Network) (order : ℕ → Unordered (PeerId × ℕ)) (turns : ℕ)
    (content proof : Bytes) (peers : List PeerId) : PutProgress × Option (Except Error XorName) :=
  putLoop C (computeAddress P content) (chunkPutWithProof P client net content proof) order turns
    (.start peers.zipIdx)

/-- What one call of `chunk_put` meets, and after how many answers to its PUTs it is stopped, if it
    has not returned before. -/
structure Attempt where
  quoteNet : Network
  quoteOrder : Unordered QuoteResult
  chain : Chain
  putNet : Network
  putOrder : ℕ → Unordered (PeerId × ℕ)
  turns : ℕ

def quoteRequestOf (content : Bytes) : ChunkQuoteRequest :=
  ⟨computeAddress P content, UInt64.ofNat content.length, dataTypeChunk⟩

/-- What it returns, and the peers it has sent a PUT. -/
def chunkPut (a : Attempt) (content : Bytes) : Option (Except Error XorName) × List PeerId :=
  match payForStorage C client a.quoteNet a.chain a.quoteOrder (quoteRequestOf P content) with
  | .ok (proof, peers) =>
    let (s, result) :=
      chunkPutToCloseGroup P C client a.putNet a.putOrder a.turns content proof peers
    (result, peers.take (peers.length - s.fallback.length))
  | .error .alreadyStored => (some (.ok (computeAddress P content)), [])
  | .error e => (some (.error e), [])

/-! ## What the loop comes to -/

variable {C} {address : XorName} {put : PeerId × ℕ → Except Error XorName}
  {order : ℕ → Unordered (PeerId × ℕ)}

/-- The peer would store the chunk. -/
def accepts (put : PeerId × ℕ → Except Error XorName) (peer : PeerId × ℕ) : Bool :=
  (put peer).toOption.isSome

/-- As many are in flight as are still needed, while there are peers to fall back to. -/
def PutProgress.Going (s : PutProgress) : Prop :=
  s.successCount < closeGroupMajority ∧
    (s.fallback = [] ∨ s.successCount + s.inFlight.length = closeGroupMajority)

theorem PutProgress.going_start (peers : List (PeerId × ℕ)) : (PutProgress.start peers).Going := by
  refine ⟨by simp [start, closeGroupMajority], ?_⟩
  by_cases h : closeGroupMajority ≤ peers.length
  · exact .inr (by simp [start, h])
  · exact .inl (by simp [start]; omega)

/-- **The loop ends**, with success exactly if enough of the peers would store the chunk, whatever
    the order of their answers. -/
theorem putLoop_ends {turns : ℕ} {s : PutProgress}
    (hturns : s.inFlight.length + s.fallback.length < turns) (hgoing : s.Going) :
    ∃ s' r, putLoop C address put order turns s = (s', some r) ∧
      (r = .ok address ↔
        closeGroupMajority ≤ s.successCount + (s.inFlight ++ s.fallback).countP (accepts put)) := by
  induction turns generalizing s with
  | zero => exact absurd hturns (Nat.not_lt_zero _)
  | succ turns ih =>
    obtain ⟨hcount, hflight⟩ := hgoing
    have hperm := (order turns).perm s.inFlight
    rw [putLoop]
    rcases hnext : order turns s.inFlight with _ | ⟨peer, inFlight⟩
    · rw [hnext] at hperm
      have hnil : s.inFlight = [] := hperm.symm.eq_nil
      have hfallback : s.fallback = [] := by
        rcases hflight with h | h
        · exact h
        · rw [hnil] at h
          exact absurd h (by simp; omega)
      refine ⟨_, _, rfl, ?_⟩
      simp [hnil, hfallback]
      omega
    · rw [hnext] at hperm
      have hlen : inFlight.length + 1 = s.inFlight.length := hperm.length_eq
      have hcountP := (hperm.countP_eq (accepts put)).symm
      rw [List.countP_cons] at hcountP
      rw [List.countP_append, hcountP]
      simp only
      rcases hput : put peer with e | addr
      · have haccepts : accepts put peer = false := by simp [accepts, hput, Except.toOption]
        obtain ⟨s', r, hr, hiff⟩ := ih (s := { s with
            inFlight := inFlight ++ s.fallback.take 1
            fallback := s.fallback.drop 1
            failures := s.failures ++ [s!"{C.displayPeerId peer.1}: {e.text}"] })
          (by simp only [List.length_append, List.length_take, List.length_drop]; omega)
          ⟨hcount, by
            rcases hflight with h | h
            · exact .inl (by simp [h])
            · by_cases hnil : s.fallback = []
              · exact .inl (by simp [hnil])
              · have := List.length_pos_iff.2 hnil
                refine .inr ?_
                simp only [List.length_append, List.length_take]
                omega⟩
        refine ⟨s', r, hr, ?_⟩
        rw [hiff]
        simp only [List.append_assoc, List.take_append_drop, List.countP_append, haccepts]
        simp
      · have haccepts : accepts put peer = true := by simp [accepts, hput, Except.toOption]
        by_cases hmajority : closeGroupMajority ≤ s.successCount + 1
        · refine ⟨_, _, if_pos hmajority, ?_⟩
          simp [haccepts]
          omega
        · obtain ⟨s', r, hr, hiff⟩ := ih (s := { s with
              inFlight := inFlight, successCount := s.successCount + 1 })
            (by simp only; omega)
            ⟨by simp only; omega, hflight.imp_right fun h => by simp only; omega⟩
          refine ⟨s', r, (if_neg hmajority).trans hr, ?_⟩
          rw [hiff]
          simp only [List.countP_append, haccepts]
          simp
          omega

theorem putLoop_eq_ok {turns : ℕ} {s s' : PutProgress} {a : XorName}
    (h : putLoop C address put order turns s = (s', some (.ok a))) : a = address := by
  induction turns generalizing s with
  | zero => cases h
  | succ turns ih =>
    rw [putLoop] at h
    rcases hnext : order turns s.inFlight with _ | ⟨peer, inFlight⟩
    · rw [hnext] at h
      cases h
    · rw [hnext] at h
      rcases hput : put peer with e | addr
      · simp only [hput] at h
        exact ih h
      · simp only [hput] at h
        split_ifs at h
        · cases h
          rfl
        · exact ih h

theorem chunkPutToCloseGroup_ends (P : Primitives) (client : Client) (net : Network)
    (order : ℕ → Unordered (PeerId × ℕ)) (content proof : Bytes) {peers : List PeerId} {turns : ℕ}
    (hturns : turnsOf peers ≤ turns) :
    ∃ s r, chunkPutToCloseGroup P C client net order turns content proof peers = (s, some r) ∧
      (r = .ok (computeAddress P content) ↔ closeGroupMajority ≤
        peers.zipIdx.countP (accepts (chunkPutWithProof P client net content proof))) := by
  have hlen : (PutProgress.start peers.zipIdx).inFlight.length +
      (PutProgress.start peers.zipIdx).fallback.length < turns := by
    simp only [PutProgress.start, List.length_take, List.length_drop, List.length_zipIdx]
    rw [turnsOf] at hturns
    omega
  obtain ⟨s, r, h, hiff⟩ := putLoop_ends (C := C) hlen (PutProgress.going_start _)
  refine ⟨s, r, h, ?_⟩
  rw [hiff]
  simp [PutProgress.start]

end Autonomi.AntClient
