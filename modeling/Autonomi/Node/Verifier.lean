/-
  The payment verifier of a node (`ant-node/src/payment/verifier.rs`) under
  concurrent calls of `verify_payment`.

  Between two steps lies a lock, a blocking task or a query of the chain.  What
  the chain and the merkle library answer are labels of the steps, and so are
  the evictions of the two caches.
-/
import Autonomi.Lib.Trace
import Autonomi.Node.Payment

namespace Autonomi.AntNode

open Lib

/-- What a call that verified a proof has seen. -/
inductive Evidence where
  | singleNode (payment : ProofOfPayment) (now : SystemTime)
      (results : List PaymentVerificationResult)
  | merkle (proof : MerklePaymentProof) (info : OnChainPaymentInfo)
  deriving DecidableEq

/-- Where a call of `verify_payment` is. -/
inductive VerifyState where
  | start
  /-- The signatures are checked in a blocking task. -/
  | signatures (payment : ProofOfPayment) (now : SystemTime)
  /-- The payment vault is queried. -/
  | vault (payment : ProofOfPayment) (now : SystemTime)
  | poolGet (proof : MerklePaymentProof)
  /-- The payment of the pool is queried. -/
  | poolQuery (proof : MerklePaymentProof)
  | poolPut (proof : MerklePaymentProof) (info : OnChainPaymentInfo)
  | pool (proof : MerklePaymentProof) (info : OnChainPaymentInfo)
  | insert (evidence : Evidence)
  | done (result : Except Error PaymentStatus) (evidence : Option Evidence)
  deriving DecidableEq

structure VerifyCall where
  xorname : XorName
  paymentProof : Option Bytes
  state : VerifyState
  deriving DecidableEq

/-- What was answered from outside. -/
inductive Answer where
  | clock (now : SystemTime)
  | vault (query : List PaymentVerification) (results : List PaymentVerificationResult)
  | pool (hash : PoolHash) (info : OnChainPaymentInfo)
  | merkle (proof : MerklePaymentProof) (info : OnChainPaymentInfo)
  deriving DecidableEq

/-- `answers` are the successful answers so far. -/
structure Verifier where
  calls : List VerifyCall
  cache : Finset XorName
  poolCache : AList fun _ : PoolHash => OnChainPaymentInfo
  answers : List Answer
  deriving DecidableEq

def Verifier.new : Verifier := ⟨[], ∅, ∅, []⟩

inductive VerifyAction where
  | call (xorname : XorName) (paymentProof : Option Bytes)
  | check (i : ℕ) (now : SystemTime)
  | signatures (i : ℕ) (fault : Option String)
  | vault (i : ℕ) (answer : Except String (List PaymentVerificationResult))
  | poolGet (i : ℕ)
  | poolQuery (i : ℕ) (answer : Except String OnChainPaymentInfo)
  | poolPut (i : ℕ)
  | pool (i : ℕ) (merkle : Except String Unit)
  | insert (i : ℕ)
  | evict (xorname : XorName)
  | evictPool (hash : PoolHash)

namespace Verifier

variable (E : Evm) (localRewardsAddress : RewardsAddress)

/-- A proof that is looked at, up to the first `await`. -/
def verifyBegin (xorname : XorName) (now : SystemTime) (proof : Bytes) : Except Error VerifyState := do
  let proofLen := proof.length
  ensure (minPaymentProofSizeBytes ≤ proofLen)
    s!"Payment proof too small: {proofLen} bytes (min {minPaymentProofSizeBytes})"
  ensure (proofLen ≤ maxPaymentProofSizeBytes)
    s!"Payment proof too large: {proofLen} bytes (max {maxPaymentProofSizeBytes} bytes)"
  match detectProofType proof with
  | some .merkle => do
    let merkleProof ← (deserializeMerkleProof E proof).mapError fun e =>
      .payment s!"Failed to deserialize merkle proof: {e}"
    ensure (merkleProof.address = xorname)
      s!"Merkle proof address mismatch: proof is for {hexEncode merkleProof.address}, but storing {hexEncode xorname}"
    pure (.poolGet merkleProof)
  | some .singleNode => do
    let (payment, _) ← (deserializeProof E proof).mapError fun e =>
      .payment s!"Failed to deserialize payment proof: {e}"
    verifyEvmBegin E localRewardsAddress xorname now payment
    pure (.signatures payment now)
  | none => .error (.payment s!"Unknown payment proof type tag: 0x{hex (proof.take 1)}")

/-- `verify_payment` once `check_payment_required` has looked into the cache. -/
def checked (c : VerifyCall) (now : SystemTime) (cached : Bool) : VerifyState :=
  if cached then .done (.ok .cachedAsVerified) none
  else match c.paymentProof with
    | none => .done (.error (.payment s!"Payment required for new data {hexEncode c.xorname}")) none
    | some proof =>
      match verifyBegin E localRewardsAddress c.xorname now proof with
      | .ok state => state
      | .error e => .done (.error e) none

def signaturesChecked (payment : ProofOfPayment) (now : SystemTime) : Option String → VerifyState
  | some e => .done (.error (.payment s!"Signature verification task failed: {e}")) none
  | none =>
    match (do verifyQuoteSignatures E payment; paymentDigest E payment) with
    | .ok _ => .vault payment now
    | .error e => .done (.error e) none

def vaultAnswered (xorname : XorName) (payment : ProofOfPayment) (now : SystemTime)
    (answer : Except String (List PaymentVerificationResult)) : VerifyState :=
  match verifyEvmEnd xorname answer with
  | .ok results => .insert (.singleNode payment now results)
  | .error e => .done (.error e) none

def poolAnswered (proof : MerklePaymentProof) : Except String OnChainPaymentInfo → VerifyState
  | .ok info => .poolPut proof info
  | .error e => .done (.error (.payment
      s!"Failed to query merkle payment info for pool {hex (E.poolHash proof.winnerPool).toList}: {e}")) none

def poolChecked (xorname : XorName) (proof : MerklePaymentProof) (info : OnChainPaymentInfo)
    (merkle : Except String Unit) : VerifyState :=
  match verifyMerkleEnd E xorname proof info merkle with
  | .ok () => .insert (.merkle proof info)
  | .error e => .done (.error e) none

/-- The call is in another state, and something may have been answered. -/
def set (s : Verifier) (i : ℕ) (c : VerifyCall) (state : VerifyState) (answers : List Answer) :
    Verifier :=
  { s with calls := s.calls.set i { c with state := state }, answers := s.answers ++ answers }

def step (s : Verifier) : VerifyAction → Option Verifier
  | .call xorname paymentProof =>
    some { s with calls := s.calls ++ [⟨xorname, paymentProof, .start⟩] }
  | .check i now => do
    let c ← s.calls[i]?
    match c.state with
    | .start =>
      some (s.set i c (checked E localRewardsAddress c now (c.xorname ∈ s.cache)) [.clock now])
    | _ => none
  | .signatures i fault => do
    let c ← s.calls[i]?
    match c.state with
    | .signatures payment now => some (s.set i c (signaturesChecked E payment now fault) [])
    | _ => none
  | .vault i answer => do
    let c ← s.calls[i]?
    match c.state with
    | .vault payment now =>
      some (s.set i c (vaultAnswered c.xorname payment now answer)
        (answer.toOption.toList.map (.vault (E.digest payment))))
    | _ => none
  | .poolGet i => do
    let c ← s.calls[i]?
    match c.state with
    | .poolGet proof =>
      match s.poolCache.lookup (E.poolHash proof.winnerPool) with
      | some info => some (s.set i c (.pool proof info) [])
      | none => some (s.set i c (.poolQuery proof) [])
    | _ => none
  | .poolQuery i answer => do
    let c ← s.calls[i]?
    match c.state with
    | .poolQuery proof =>
      some (s.set i c (poolAnswered E proof answer)
        (answer.toOption.toList.map (.pool (E.poolHash proof.winnerPool))))
    | _ => none
  | .poolPut i => do
    let c ← s.calls[i]?
    match c.state with
    | .poolPut proof info =>
      some { s.set i c (.pool proof info) [] with
        poolCache := s.poolCache.insert (E.poolHash proof.winnerPool) info }
    | _ => none
  | .pool i merkle => do
    let c ← s.calls[i]?
    match c.state with
    | .pool proof info =>
      some (s.set i c (poolChecked E c.xorname proof info merkle)
        (merkle.toOption.toList.map fun _ => .merkle proof info))
    | _ => none
  | .insert i => do
    let c ← s.calls[i]?
    match c.state with
    | .insert evidence =>
      some { s.set i c (.done (.ok .paymentVerified) (some evidence)) [] with
        cache := insert c.xorname s.cache }
    | _ => none
  | .evict xorname => some { s with cache := s.cache.erase xorname }
  | .evictPool hash => some { s with poolCache := s.poolCache.erase hash }

/-! ## What a verified payment is -/

/-- One of the two paths of verification, passed in full on answers that were given. -/
inductive FullyPassed (answers : List Answer) (xorname : XorName) (proofBytes : Bytes) :
    Evidence → Prop where
  | singleNode {payment : ProofOfPayment} {txHashes : List TxHash} {now : SystemTime}
      {results : List PaymentVerificationResult} :
      deserializeProof E proofBytes = .ok (payment, txHashes) → .clock now ∈ answers →
      QuotesValid E localRewardsAddress xorname now payment → QuotesSigned E payment →
      .vault (E.digest payment) results ∈ answers → PaidOnChain results →
      FullyPassed answers xorname proofBytes (.singleNode payment now results)
  | merkle {proof : MerklePaymentProof} {info : OnChainPaymentInfo} :
      deserializeMerkleProof E proofBytes = .ok proof → proof.address = xorname →
      .pool (E.poolHash proof.winnerPool) info ∈ answers → .merkle proof info ∈ answers →
      PoolValid E proof.winnerPool.candidateNodes info →
      FullyPassed answers xorname proofBytes (.merkle proof info)

/-- A call for this address has verified its own proof. -/
def Passed (s : Verifier) (xorname : XorName) : Prop :=
  ∃ c ∈ s.calls, c.xorname = xorname ∧ ∃ proofBytes evidence, c.paymentProof = some proofBytes ∧
    c.state = .done (.ok .paymentVerified) (some evidence) ∧
    FullyPassed E localRewardsAddress s.answers xorname proofBytes evidence

/-! ## The invariant -/

/-- A single-node proof whose quotes have been looked at. -/
def SinglePresented (answers : List Answer) (c : VerifyCall) (payment : ProofOfPayment)
    (now : SystemTime) : Prop :=
  ∃ proofBytes txHashes, c.paymentProof = some proofBytes ∧
    deserializeProof E proofBytes = .ok (payment, txHashes) ∧ .clock now ∈ answers ∧
    QuotesValid E localRewardsAddress c.xorname now payment

def MerklePresented (c : VerifyCall) (proof : MerklePaymentProof) : Prop :=
  ∃ proofBytes, c.paymentProof = some proofBytes ∧
    deserializeMerkleProof E proofBytes = .ok proof ∧ proof.address = c.xorname

/-- What has been checked where a call is. -/
def CallOk (answers : List Answer) (passed : XorName → Prop) (c : VerifyCall) : Prop :=
  match c.state with
  | .start | .done (.error _) _ => True
  | .signatures payment now => SinglePresented E localRewardsAddress answers c payment now
  | .vault payment now =>
    SinglePresented E localRewardsAddress answers c payment now ∧ QuotesSigned E payment
  | .poolGet proof | .poolQuery proof => MerklePresented E c proof
  | .poolPut proof info | .pool proof info =>
    MerklePresented E c proof ∧ .pool (E.poolHash proof.winnerPool) info ∈ answers
  | .insert evidence => ∃ proofBytes, c.paymentProof = some proofBytes ∧
    FullyPassed E localRewardsAddress answers c.xorname proofBytes evidence
  | .done (.ok .paymentVerified) evidence => ∃ proofBytes ev, c.paymentProof = some proofBytes ∧
    evidence = some ev ∧ FullyPassed E localRewardsAddress answers c.xorname proofBytes ev
  | .done (.ok .cachedAsVerified) _ => passed c.xorname
  | .done (.ok .paymentRequired) _ => False

structure Inv (s : Verifier) : Prop where
  calls : ∀ c ∈ s.calls, CallOk E localRewardsAddress s.answers (s.Passed E localRewardsAddress) c
  cache : ∀ xorname ∈ s.cache, s.Passed E localRewardsAddress xorname
  pool : ∀ hash info, s.poolCache.lookup hash = some info → .pool hash info ∈ s.answers

variable {E localRewardsAddress} {s s' : Verifier} {c : VerifyCall} {i : ℕ} {state : VerifyState}
  {answers answers' : List Answer} {passed passed' : XorName → Prop} {xorname : XorName}

theorem FullyPassed.mono {proofBytes : Bytes} {evidence : Evidence} (hsub : answers ⊆ answers')
    (h : FullyPassed E localRewardsAddress answers xorname proofBytes evidence) :
    FullyPassed E localRewardsAddress answers' xorname proofBytes evidence := by
  cases h with
  | singleNode hproof hclock hvalid hsigned hvault hpaid =>
    exact .singleNode hproof (hsub hclock) hvalid hsigned (hsub hvault) hpaid
  | merkle hproof haddr hpool hmerkle hvalid =>
    exact .merkle hproof haddr (hsub hpool) (hsub hmerkle) hvalid

theorem SinglePresented.mono {payment : ProofOfPayment} {now : SystemTime}
    (hsub : answers ⊆ answers') (h : SinglePresented E localRewardsAddress answers c payment now) :
    SinglePresented E localRewardsAddress answers' c payment now := by
  obtain ⟨proofBytes, txHashes, hc, hproof, hclock, hvalid⟩ := h
  exact ⟨proofBytes, txHashes, hc, hproof, hsub hclock, hvalid⟩

theorem CallOk.mono (hsub : answers ⊆ answers') (hpassed : ∀ x, passed x → passed' x)
    (h : CallOk E localRewardsAddress answers passed c) :
    CallOk E localRewardsAddress answers' passed' c := by
  unfold CallOk at h ⊢
  split at h
  · trivial
  · trivial
  · exact h.mono hsub
  · exact ⟨h.1.mono hsub, h.2⟩
  · exact h
  · exact h
  · exact ⟨h.1, hsub h.2⟩
  · exact ⟨h.1, hsub h.2⟩
  · obtain ⟨proofBytes, hc, hfull⟩ := h
    exact ⟨proofBytes, hc, hfull.mono hsub⟩
  · obtain ⟨proofBytes, ev, hc, he, hfull⟩ := h
    exact ⟨proofBytes, ev, hc, he, hfull.mono hsub⟩
  · exact hpassed _ h
  · exact h

/-- What a call has passed stays, while another call goes on. -/
theorem Passed.set (hi : s.calls[i]? = some c) (hstate : ∀ r e, c.state ≠ .done r e)
    (h : s.Passed E localRewardsAddress xorname) :
    (s.set i c state answers).Passed E localRewardsAddress xorname := by
  have hsub : s.answers ⊆ s.answers ++ answers := List.subset_append_left _ _
  refine exists_mem_set (b := c) ?_ hi ?_
  · obtain ⟨c', hmem, hx, proofBytes, evidence, hproof, hdone, hfull⟩ := h
    exact ⟨c', hmem, hx, proofBytes, evidence, hproof, hdone, hfull.mono hsub⟩
  · rintro ⟨-, _, _, -, hdone, -⟩
    exact absurd hdone (hstate _ _)

theorem Inv.set (h : s.Inv E localRewardsAddress) (hi : s.calls[i]? = some c)
    (hstate : ∀ r e, c.state ≠ .done r e)
    (hok : CallOk E localRewardsAddress (s.answers ++ answers) (s.Passed E localRewardsAddress)
      { c with state := state }) :
    (s.set i c state answers).Inv E localRewardsAddress := by
  have hsub : s.answers ⊆ s.answers ++ answers := List.subset_append_left _ _
  refine ⟨forall_mem_set (fun c' hc' => ?_) ?_, fun x hx => (h.cache x hx).set hi hstate,
    fun hash info hl => hsub (h.pool hash info hl)⟩
  · exact (h.calls c' hc').mono hsub fun x hx => hx.set hi hstate
  · exact hok.mono (List.Subset.refl _) fun x hx => hx.set hi hstate

/-! ## The steps -/

theorem verifyBegin_ok {now : SystemTime} {proofBytes : Bytes} (hc : c.paymentProof = some proofBytes)
    (hclock : .clock now ∈ answers)
    (h : verifyBegin E localRewardsAddress c.xorname now proofBytes = .ok state) :
    CallOk E localRewardsAddress answers passed { c with state := state } := by
  simp only [verifyBegin, bind_eq_ok] at h
  obtain ⟨_, -, _, -, h⟩ := h
  split at h
  · obtain ⟨proof, hproof, h⟩ := bind_eq_ok.1 h
    obtain ⟨_, haddr, h⟩ := bind_eq_ok.1 h
    rw [ensure_eq_ok] at haddr
    cases h
    exact ⟨proofBytes, hc, mapError_eq_ok.1 hproof, haddr⟩
  · obtain ⟨⟨payment, txHashes⟩, hproof, h⟩ := bind_eq_ok.1 h
    obtain ⟨_, hvalid, h⟩ := bind_eq_ok.1 h
    cases h
    exact ⟨proofBytes, txHashes, hc, mapError_eq_ok.1 hproof, hclock, verifyEvmBegin_eq_ok.1 hvalid⟩
  · cases h

theorem checked_ok {now : SystemTime} {cached : Bool} (hclock : .clock now ∈ answers)
    (hcached : cached = true → passed c.xorname) :
    CallOk E localRewardsAddress answers passed
      { c with state := checked E localRewardsAddress c now cached } := by
  cases cached with
  | true => exact hcached rfl
  | false =>
    rcases hc : c.paymentProof with _ | proofBytes
    · simp [checked, hc, CallOk]
    · rcases hb : verifyBegin E localRewardsAddress c.xorname now proofBytes with e | state
      · simp [checked, hc, hb, CallOk]
      · have : CallOk E localRewardsAddress answers passed { c with state := state } :=
          verifyBegin_ok hc hclock hb
        simpa [checked, hc, hb] using this

theorem signaturesChecked_ok {payment : ProofOfPayment} {now : SystemTime} {fault : Option String}
    (h : SinglePresented E localRewardsAddress answers c payment now) :
    CallOk E localRewardsAddress answers passed
      { c with state := signaturesChecked E payment now fault } := by
  rcases fault with _ | e
  · rcases hs : (do verifyQuoteSignatures E payment; paymentDigest E payment) with e | query
    · simp [signaturesChecked, hs, CallOk]
    · obtain ⟨_, hsigned, -⟩ := bind_eq_ok.1 hs
      have hok : CallOk E localRewardsAddress answers passed { c with state := .vault payment now } :=
        ⟨h, verifyQuoteSignatures_eq_ok.1 hsigned⟩
      simpa only [signaturesChecked, hs] using hok
  · trivial

theorem vaultAnswered_ok {payment : ProofOfPayment} {now : SystemTime}
    {answer : Except String (List PaymentVerificationResult)}
    (h : SinglePresented E localRewardsAddress answers c payment now) (hsigned : QuotesSigned E payment)
    (hanswer : ∀ results, answer = .ok results → .vault (E.digest payment) results ∈ answers) :
    CallOk E localRewardsAddress answers passed
      { c with state := vaultAnswered c.xorname payment now answer } := by
  rcases hend : verifyEvmEnd c.xorname answer with e | results
  · simp [vaultAnswered, hend, CallOk]
  · obtain ⟨hok, hpaid⟩ := verifyEvmEnd_eq_ok.1 hend
    obtain ⟨proofBytes, txHashes, hc, hproof, hclock, hvalid⟩ := h
    have : CallOk E localRewardsAddress answers passed
        { c with state := .insert (.singleNode payment now results) } :=
      ⟨proofBytes, hc, .singleNode hproof hclock hvalid hsigned (hanswer _ hok) hpaid⟩
    simpa only [vaultAnswered, hend] using this

theorem poolChecked_ok {proof : MerklePaymentProof} {info : OnChainPaymentInfo}
    {merkle : Except String Unit} (h : MerklePresented E c proof)
    (hpool : .pool (E.poolHash proof.winnerPool) info ∈ answers)
    (hmerkle : merkle = .ok () → .merkle proof info ∈ answers) :
    CallOk E localRewardsAddress answers passed
      { c with state := poolChecked E c.xorname proof info merkle } := by
  rcases hend : verifyMerkleEnd E c.xorname proof info merkle with e | u
  · simp [poolChecked, hend, CallOk]
  · obtain ⟨hok, hvalid⟩ := verifyMerkleEnd_eq_ok.1 hend
    obtain ⟨proofBytes, hc, hproof, haddr⟩ := h
    have : CallOk E localRewardsAddress answers passed
        { c with state := .insert (.merkle proof info) } :=
      ⟨proofBytes, hc, .merkle hproof haddr hpool (hmerkle hok) hvalid⟩
    simpa only [poolChecked, hend] using this

/-- What a step finds where its call is. -/
theorem Inv.callOk (h : s.Inv E localRewardsAddress) (hi : s.calls[i]? = some c) :
    CallOk E localRewardsAddress s.answers (s.Passed E localRewardsAddress) c :=
  h.calls c (List.mem_of_getElem? hi)

theorem Inv.call (h : s.Inv E localRewardsAddress) (paymentProof : Option Bytes) :
    ({ s with calls := s.calls ++ [⟨xorname, paymentProof, .start⟩] } : Verifier).Inv E
      localRewardsAddress := by
  have hmono : ∀ x, s.Passed E localRewardsAddress x →
      ({ s with calls := s.calls ++ [⟨xorname, paymentProof, .start⟩] } : Verifier).Passed E
        localRewardsAddress x := by
    rintro x ⟨c, hmem, hc⟩
    exact ⟨c, List.mem_append_left _ hmem, hc⟩
  refine ⟨forall_mem_append (fun c hc => ?_) trivial, fun x hx => hmono x (h.cache x hx), h.pool⟩
  exact (h.calls c hc).mono (List.Subset.refl _) hmono

theorem Inv.insert {evidence : Evidence} (h : s.Inv E localRewardsAddress)
    (hi : s.calls[i]? = some c) (hstate : c.state = .insert evidence) :
    ({ s.set i c (.done (.ok .paymentVerified) (some evidence)) [] with
      cache := insert c.xorname s.cache } : Verifier).Inv E localRewardsAddress := by
  have hok := h.callOk hi
  rw [CallOk, hstate] at hok
  obtain ⟨proofBytes, hc, hfull⟩ := hok
  have hset : (s.set i c (.done (.ok .paymentVerified) (some evidence)) []).Inv E
      localRewardsAddress := h.set hi (by simp [hstate])
    ⟨proofBytes, evidence, hc, rfl, hfull.mono (List.subset_append_left _ _)⟩
  refine ⟨hset.calls, fun x hx => ?_, hset.pool⟩
  rcases Finset.mem_insert.1 hx with rfl | hx
  · exact ⟨_, mem_set_self hi, rfl, proofBytes, evidence, hc, rfl,
      hfull.mono (List.subset_append_left _ _)⟩
  · exact hset.cache x hx

theorem Inv.poolPut {proof : MerklePaymentProof} {info : OnChainPaymentInfo}
    (h : s.Inv E localRewardsAddress) (hi : s.calls[i]? = some c)
    (hstate : c.state = .poolPut proof info) :
    ({ s.set i c (.pool proof info) [] with
      poolCache := s.poolCache.insert (E.poolHash proof.winnerPool) info } : Verifier).Inv E
      localRewardsAddress := by
  have hok := h.callOk hi
  rw [CallOk, hstate] at hok
  have hset : (s.set i c (.pool proof info) []).Inv E localRewardsAddress :=
    h.set hi (by simp [hstate]) ⟨hok.1, List.mem_append_left _ hok.2⟩
  refine ⟨hset.calls, hset.cache, fun hash info' hl => ?_⟩
  by_cases hhash : hash = E.poolHash proof.winnerPool
  · subst hhash
    rw [AList.lookup_insert] at hl
    cases hl
    exact List.mem_append_left _ hok.2
  · rw [AList.lookup_insert_ne hhash] at hl
    exact hset.pool hash info' hl

theorem Inv.evictPool (h : s.Inv E localRewardsAddress) (hash : PoolHash) :
    ({ s with poolCache := s.poolCache.erase hash } : Verifier).Inv E localRewardsAddress := by
  refine ⟨h.calls, h.cache, fun hash' info hl => ?_⟩
  by_cases hhash : hash' = hash
  · subst hhash
    rw [AList.lookup_erase] at hl
    cases hl
  · rw [AList.lookup_erase_ne hhash] at hl
    exact h.pool hash' info hl

/-- A step of the call `i`, and where the call was. -/
theorem of_bind {β : Type} {next : VerifyCall → Option β} {b : β}
    (h : (do let c ← s.calls[i]?; next c) = some b) :
    ∃ c, s.calls[i]? = some c ∧ next c = some b :=
  Option.bind_eq_some_iff.1 h

theorem Inv.step {a : VerifyAction} (h : s.Inv E localRewardsAddress)
    (hstep : s.step E localRewardsAddress a = some s') : s'.Inv E localRewardsAddress := by
  cases a with
  | call xorname paymentProof => cases hstep; exact h.call paymentProof
  | check i now =>
    obtain ⟨c, hi, hstep⟩ := of_bind hstep
    split at hstep <;> cases hstep
    rename_i hstate
    refine h.set hi (by simp [hstate]) (checked_ok (by simp) fun hcached => ?_)
    exact h.cache _ (of_decide_eq_true hcached)
  | signatures i fault =>
    obtain ⟨c, hi, hstep⟩ := of_bind hstep
    split at hstep <;> cases hstep
    rename_i hstate
    have hok := h.callOk hi
    rw [CallOk, hstate] at hok
    exact h.set hi (by simp [hstate]) (signaturesChecked_ok (hok.mono (List.subset_append_left _ _)))
  | vault i answer =>
    obtain ⟨c, hi, hstep⟩ := of_bind hstep
    split at hstep <;> cases hstep
    rename_i hstate
    have hok := h.callOk hi
    rw [CallOk, hstate] at hok
    refine h.set hi (by simp [hstate]) (vaultAnswered_ok (hok.1.mono (List.subset_append_left _ _))
      hok.2 fun results hresults => ?_)
    subst hresults
    simp [Except.toOption]
  | poolGet i =>
    obtain ⟨c, hi, hstep⟩ := of_bind hstep
    split at hstep
    · rename_i hstate
      have hok := h.callOk hi
      rw [CallOk, hstate] at hok
      split at hstep <;> cases hstep
      · rename_i hl
        exact h.set hi (by simp [hstate]) ⟨hok, List.mem_append_left _ (h.pool _ _ hl)⟩
      · exact h.set hi (by simp [hstate]) hok
    · cases hstep
  | poolQuery i answer =>
    obtain ⟨c, hi, hstep⟩ := of_bind hstep
    split at hstep <;> cases hstep
    rename_i hstate
    have hok := h.callOk hi
    rw [CallOk, hstate] at hok
    refine h.set hi (by simp [hstate]) ?_
    cases answer with
    | error e => trivial
    | ok info => exact ⟨hok, by simp [Except.toOption]⟩
  | poolPut i =>
    obtain ⟨c, hi, hstep⟩ := of_bind hstep
    split at hstep <;> cases hstep
    rename_i hstate
    exact h.poolPut hi hstate
  | pool i merkle =>
    obtain ⟨c, hi, hstep⟩ := of_bind hstep
    split at hstep <;> cases hstep
    rename_i hstate
    have hok := h.callOk hi
    rw [CallOk, hstate] at hok
    refine h.set hi (by simp [hstate]) (poolChecked_ok hok.1 (List.mem_append_left _ hok.2)
      fun hmerkle => ?_)
    subst hmerkle
    simp [Except.toOption]
  | insert i =>
    obtain ⟨c, hi, hstep⟩ := of_bind hstep
    split at hstep <;> cases hstep
    rename_i hstate
    exact h.insert hi hstate
  | evict xorname =>
    cases hstep
    exact ⟨h.calls, fun x hx => h.cache x (Finset.mem_of_mem_erase hx), h.pool⟩
  | evictPool hash => cases hstep; exact h.evictPool hash

theorem inv_new : Verifier.new.Inv E localRewardsAddress :=
  ⟨by simp [Verifier.new], by simp [Verifier.new], by simp [Verifier.new]⟩

theorem Inv.of_runs {as : List VerifyAction}
    (h : Runs (Verifier.step E localRewardsAddress) .new as s) : s.Inv E localRewardsAddress :=
  h.invariant (fun _ _ _ _ hs hstep => hs.step hstep) inv_new

/-- What a call that allows to store rests on. -/
theorem Inv.passed_of_done {status : PaymentStatus} {evidence : Option Evidence}
    (h : s.Inv E localRewardsAddress) (hc : c ∈ s.calls)
    (hdone : c.state = .done (.ok status) evidence) (hstore : status.canStore = true) :
    s.Passed E localRewardsAddress c.xorname := by
  have hok := h.calls c hc
  rw [CallOk, hdone] at hok
  cases status with
  | cachedAsVerified => exact hok
  | paymentRequired => cases hstore
  | paymentVerified =>
    obtain ⟨proofBytes, ev, hproof, rfl, hfull⟩ := hok
    exact ⟨c, hc, rfl, proofBytes, ev, hproof, hdone, hfull⟩

/-- What a step does to the calls. -/
theorem step_calls {a : VerifyAction} (hstep : s.step E localRewardsAddress a = some s') :
    (∃ xorname paymentProof, s'.calls = s.calls ++ [⟨xorname, paymentProof, .start⟩] ∧
      s'.answers = s.answers) ∨
    (∃ i c state answers, s.calls[i]? = some c ∧ (∀ r e, c.state ≠ .done r e) ∧
      s'.calls = s.calls.set i { c with state := state } ∧ s'.answers = s.answers ++ answers) ∨
    (s'.calls = s.calls ∧ s'.answers = s.answers) := by
  cases a with
  | call xorname paymentProof => cases hstep; exact .inl ⟨_, _, rfl, rfl⟩
  | evict xorname => cases hstep; exact .inr (.inr ⟨rfl, rfl⟩)
  | evictPool hash => cases hstep; exact .inr (.inr ⟨rfl, rfl⟩)
  | poolGet i =>
    obtain ⟨c, hi, hstep⟩ := of_bind hstep
    split at hstep
    · rename_i hstate
      split at hstep <;> cases hstep <;>
        exact .inr (.inl ⟨i, c, _, [], hi, by simp [hstate], rfl, rfl⟩)
    · cases hstep
  | _ =>
    obtain ⟨c, hi, hstep⟩ := of_bind hstep
    split at hstep <;> cases hstep
    rename_i hstate
    exact .inr (.inl ⟨_, c, _, _, hi, by simp [hstate], rfl, rfl⟩)

theorem Passed.step {a : VerifyAction} (hstep : s.step E localRewardsAddress a = some s')
    (h : s.Passed E localRewardsAddress xorname) : s'.Passed E localRewardsAddress xorname := by
  rcases step_calls hstep with ⟨x, p, hcalls, hanswers⟩ | ⟨i, c, state, answers, hi, hstate, hcalls, hanswers⟩ |
    ⟨hcalls, hanswers⟩
  · obtain ⟨c, hmem, hx, proofBytes, evidence, hc, hdone, hfull⟩ := h
    exact ⟨c, by rw [hcalls]; exact List.mem_append_left _ hmem, hx, proofBytes, evidence, hc, hdone,
      by rwa [hanswers]⟩
  · rw [Passed, hcalls, hanswers]
    exact Passed.set hi hstate h
  · rw [Passed, hcalls, hanswers]
    exact h

/-- A call keeps its address. -/
theorem xorname_step {a : VerifyAction} {k : ℕ} (hstep : s.step E localRewardsAddress a = some s')
    (h : (s.calls[k]?).map VerifyCall.xorname = some xorname) :
    (s'.calls[k]?).map VerifyCall.xorname = some xorname := by
  rcases step_calls hstep with ⟨x, p, hcalls, -⟩ | ⟨i, c, state, answers, hi, -, hcalls, -⟩ | ⟨hcalls, -⟩
  · obtain ⟨c, hk, hx⟩ := Option.map_eq_some_iff.1 h
    rw [hcalls, List.getElem?_append_left (List.getElem?_eq_some_iff.1 hk).1, hk, ← hx]
    rfl
  · have hmap : (s.calls.set i { c with state := state }).map VerifyCall.xorname =
        s.calls.map VerifyCall.xorname := map_set_eq hi rfl
    rw [hcalls, ← List.getElem?_map, hmap, List.getElem?_map, h]
  · rw [hcalls, h]

/-- **A payment is verified before it counts**: a call that allows to store has itself passed one of
    the two paths in full, or found in the cache what a call for the same address left there that
    had. -/
theorem payment_cache_sound (P : Primitives) {as : List VerifyAction} {status : PaymentStatus}
    {evidence : Option Evidence}
    (hpeer : ∀ pubKey id, E.peerIdFromPublicKeyBytes pubKey = .ok id → id = P.blake3 pubKey)
    (h : Runs (Verifier.step E localRewardsAddress) .new as s) (hc : c ∈ s.calls)
    (hdone : c.state = .done (.ok status) evidence) (hstore : status.canStore = true) :
    ∃ c' ∈ s.calls, c'.xorname = c.xorname ∧ ∃ proofBytes ev, c'.paymentProof = some proofBytes ∧
      c'.state = .done (.ok .paymentVerified) (some ev) ∧
      FullyPassed E localRewardsAddress s.answers c.xorname proofBytes ev ∧
      ∀ payment now results, ev = .singleNode payment now results →
        ∀ q ∈ payment.peerQuotes, q.1 = (P.blake3 q.2.pubKey).toList := by
  obtain ⟨c', hc', hx, proofBytes, ev, hproof, hdone', hfull⟩ :=
    (Inv.of_runs h).passed_of_done hc hdone hstore
  refine ⟨c', hc', hx, proofBytes, ev, hproof, hdone', hfull, ?_⟩
  rintro payment now results rfl q hq
  cases hfull with
  | singleNode _ _ hvalid =>
    obtain ⟨id, hid, hq⟩ := hvalid.bound q hq
    rw [← hq, hpeer _ _ hid]

end Verifier

/-! ## One proof, presented twice -/

section Example

open Verifier

def exampleAddress (n : ℕ) : RewardsAddress := padTo 20 [UInt8.ofNat n]

/-- A key of the length of ML-DSA-65. -/
def exampleKey (n : ℕ) : Bytes := List.replicate 1952 (UInt8.ofNat n)

def exampleMetrics : QuotingMetrics := ⟨1, 0, 0, [], 0, 0, 0, none, none⟩

def seconds (n : ℕ) : ℕ := n * 1000000000

def exampleBytesForSigning (content : XorName) (timestamp : SystemTime) (_ : QuotingMetrics)
    (rewardsAddress : RewardsAddress) : Bytes :=
  content.toList ++ leBytes 8 timestamp ++ rewardsAddress.toList

/-- The quote of the holder of the `n`-th key, signed. -/
def exampleQuote (content : XorName) (timestamp : SystemTime) (n : ℕ) (rewards : RewardsAddress) :
    EncodedPeerId × PaymentQuote :=
  ((clear.blake3 (exampleKey n)).toList, ⟨content, timestamp, exampleMetrics, exampleKey n, rewards,
    UInt8.ofNat n :: exampleBytesForSigning content timestamp exampleMetrics rewards⟩)

/-- Signatures name the key and repeat the message; the one proof that is read is `payment`. -/
def exampleEvm (payment : ProofOfPayment) : Evm where
  readPaymentProof payload :=
    if payload = List.replicate 31 7 then .ok ⟨payment, []⟩ else .error "invalid type"
  readMerkleProof _ := .error "invalid type"
  bytesForSigning := exampleBytesForSigning
  bytesToSign _ rewards timestamp := rewards.toList ++ leBytes 8 timestamp
  quoteHash quote := clear.blake3 quote.signature
  digest payment := payment.peerQuotes.map fun q =>
    ⟨q.2.quotingMetrics, q.2.rewardsAddress, clear.blake3 q.2.signature⟩
  mlDsaVerify pubKey message signature :=
    pubKey.length = 1952 ∧ signature = pubKey.take 1 ++ message
  peerIdFromPublicKeyBytes pubKey :=
    if pubKey.length = 1952 then .ok (clear.blake3 pubKey) else .error "Invalid key length"
  poolHash _ := padTo 32 []
  debugPeerId peer := hex peer
  displayAddress address := hex address.toList

theorem peerId_example (payment : ProofOfPayment) (pubKey : Bytes) (id : PeerId)
    (h : (exampleEvm payment).peerIdFromPublicKeyBytes pubKey = .ok id) : id = clear.blake3 pubKey := by
  simp only [exampleEvm] at h
  split_ifs at h
  exact (Except.ok.inj h).symm

def exampleProofBytes : Bytes := proofTagSingleNode :: List.replicate 31 7

def exampleContent : XorName := computeAddress clear [5]

/-- Five peers have quoted for the content, a second after each other. -/
def examplePayment : ProofOfPayment :=
  ⟨(List.range 5).map fun n => exampleQuote exampleContent (seconds n) n (exampleAddress n)⟩

/-- The third quote is paid. -/
def exampleResults : List PaymentVerificationResult :=
  (exampleEvm examplePayment).digest examplePayment |>.zipIdx.map fun q =>
    ⟨q.1.quoteHash, if q.2 = 2 then 3 else 0, q.2 = 2⟩

/-- The first call verifies, the second finds the address in the cache. -/
def exampleVerifyActions : List VerifyAction :=
  [.call exampleContent (some exampleProofBytes), .check 0 (seconds 100), .signatures 0 none,
    .vault 0 (.ok exampleResults), .insert 0, .call exampleContent none, .check 1 (seconds 101)]

theorem payment_cache_sound_twice : ∃ s,
    Runs (Verifier.step (exampleEvm examplePayment) (exampleAddress 0)) .new exampleVerifyActions s ∧
    ∃ c ∈ s.calls, c.state = .done (.ok .cachedAsVerified) none ∧
    ∃ c' ∈ s.calls, c'.xorname = c.xorname ∧ ∃ proofBytes ev, c'.paymentProof = some proofBytes ∧
      c'.state = .done (.ok .paymentVerified) (some ev) ∧
      FullyPassed (exampleEvm examplePayment) (exampleAddress 0) s.answers c.xorname proofBytes ev ∧
      ∀ payment now results, ev = .singleNode payment now results →
        ∀ q ∈ payment.peerQuotes, q.1 = (clear.blake3 q.2.pubKey).toList := by
  obtain ⟨s, hs, c, hc, hdone⟩ : ∃ s ∈ exampleVerifyActions.foldlM
      (Verifier.step (exampleEvm examplePayment) (exampleAddress 0)) .new,
      ∃ c ∈ s.calls, c.state = .done (.ok .cachedAsVerified) none := by decide +kernel
  exact ⟨s, runs_iff.2 hs, c, hc, hdone,
    payment_cache_sound clear (peerId_example _) (runs_iff.2 hs) hc hdone rfl⟩

end Example

end Autonomi.AntNode
