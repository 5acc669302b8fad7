/-
  What a single-node proof that a node accepts says about this node.
-/
import Autonomi.Node.Verifier

namespace Autonomi.AntNode

open Lib Verifier

variable {E : Evm} {localRewardsAddress : RewardsAddress} {s : Verifier} {as : List VerifyAction}
  {c : VerifyCall} {payment : ProofOfPayment} {now : SystemTime}
  {results : List PaymentVerificationResult}

/-- Only messages that the holder of a key has signed are verified under it. -/
def IdealSignatures (E : Evm) (signedBy : Bytes → Set Bytes) : Prop :=
  ∀ pubKey message signature, E.mlDsaVerify pubKey message signature = true →
    message ∈ signedBy pubKey

/-- The node signs quotes only where it creates them. -/
def SignsIssued (E : Evm) (messages : Set Bytes) (issued : List PaymentQuote) : Prop :=
  ∀ quote, bytesForSig E quote ∈ messages → ∃ quote' ∈ issued, bytesForSig E quote' = bytesForSig E quote

/-- What is signed of two quotes tells them apart. -/
def SameSigned (quote quote' : PaymentQuote) : Prop :=
  quote.content = quote'.content ∧ quote.timestamp = quote'.timestamp ∧
    quote.quotingMetrics = quote'.quotingMetrics ∧ quote.rewardsAddress = quote'.rewardsAddress

/-- **An accepted proof names the node**: one of its quotes is to be paid to the address of the
    node, is fresh, is for the content that is stored and was signed by the holder of the key that
    its peer id is the hash of.  If that is the node's own key, the node has issued this quote. -/
theorem accepted_names_node (P : Primitives) {signedBy : Bytes → Set Bytes}
    {nodeKey : Bytes} {issued : List PaymentQuote}
    (hideal : IdealSignatures E signedBy) (hissued : SignsIssued E (signedBy nodeKey) issued)
    (hpeer : ∀ pubKey id, E.peerIdFromPublicKeyBytes pubKey = .ok id → id = P.blake3 pubKey)
    (hinj : ∀ q ∈ payment.peerQuotes, ∀ quote ∈ issued,
      bytesForSig E quote = bytesForSig E q.2 → SameSigned quote q.2)
    (h : Runs (Verifier.step E localRewardsAddress) .new as s) (hc : c ∈ s.calls)
    (hdone : c.state = .done (.ok .paymentVerified) (some (.singleNode payment now results))) :
    payment.peerQuotes.length = closeGroupSize ∧
    ∃ q ∈ payment.peerQuotes, q.2.rewardsAddress = localRewardsAddress ∧
      q.2.content = c.xorname ∧ Fresh now q.2.timestamp ∧ .clock now ∈ s.answers ∧
      q.1 = (P.blake3 q.2.pubKey).toList ∧ bytesForSig E q.2 ∈ signedBy q.2.pubKey ∧
      (q.2.pubKey = nodeKey → ∃ quote ∈ issued, SameSigned quote q.2) := by
  have hok := (Inv.of_runs h).calls c hc
  rw [CallOk, hdone] at hok
  obtain ⟨proofBytes, ev, -, he, hfull⟩ := hok
  cases he
  cases hfull with
  | singleNode _ hclock hvalid hsigned =>
    obtain ⟨q, hq, hrecipient⟩ := hvalid.recipient
    obtain ⟨id, hid, hname⟩ := hvalid.bound q hq
    have hmessage := hideal _ _ _ (hsigned q hq)
    refine ⟨hvalid.count, q, hq, hrecipient, hvalid.content q hq, hvalid.fresh q hq, hclock, ?_,
      hmessage, ?_⟩
    · rw [← hname, hpeer _ _ hid]
    · intro hkey
      rw [hkey] at hmessage
      obtain ⟨quote, hmem, hbytes⟩ := hissued _ hmessage
      exact ⟨quote, hmem, hinj q hq quote hmem hbytes⟩

/-! ## An honest proof, and one of an attacker -/

section Example

/-- What the holders of the keys have signed: their quotes of this payment. -/
def exampleSignedBy (payment : ProofOfPayment) (pubKey : Bytes) : Set Bytes :=
  {message | ∃ q ∈ payment.peerQuotes, q.2.pubKey = pubKey ∧
    message = exampleBytesForSigning q.2.content q.2.timestamp q.2.quotingMetrics
      q.2.rewardsAddress}

/-- Only what was signed is verified. -/
def exampleIdealEvm (payment : ProofOfPayment) : Evm :=
  { exampleEvm payment with
    mlDsaVerify := fun pubKey message signature => decide (∃ q ∈ payment.peerQuotes,
      q.2.pubKey = pubKey ∧ message = exampleBytesForSigning q.2.content q.2.timestamp
        q.2.quotingMetrics q.2.rewardsAddress ∧ signature = q.2.signature) }

theorem idealSignatures_example (payment : ProofOfPayment) :
    IdealSignatures (exampleIdealEvm payment) (exampleSignedBy payment) := by
  intro pubKey message signature h
  obtain ⟨q, hq, hkey, hmessage, -⟩ := of_decide_eq_true h
  exact ⟨q, hq, hkey, hmessage⟩

/-- One call, which verifies the proof. -/
def exampleSingleActions : List VerifyAction :=
  [.call exampleContent (some exampleProofBytes), .check 0 (seconds 100), .signatures 0 none,
    .vault 0 (.ok exampleResults), .insert 0]

def isVerified (payment : ProofOfPayment) (now : SystemTime)
    (results : List PaymentVerificationResult) (c : VerifyCall) : Prop :=
  c.state = .done (.ok .paymentVerified) (some (.singleNode payment now results))

instance (payment : ProofOfPayment) (now : SystemTime) (results : List PaymentVerificationResult)
    (c : VerifyCall) : Decidable (isVerified payment now results c) :=
  inferInstanceAs (Decidable (_ = _))

/-- The node is the first of the five peers, and has issued their first quote. -/
def exampleIssued : List PaymentQuote := (examplePayment.peerQuotes.take 1).map Prod.snd

theorem accepted_names_node_first : ∃ s, ∃ c ∈ s.calls,
    Runs (Verifier.step (exampleIdealEvm examplePayment) (exampleAddress 0)) .new
      exampleSingleActions s ∧
    isVerified examplePayment (seconds 100) exampleResults c ∧
    ∃ q ∈ examplePayment.peerQuotes, q.2.rewardsAddress = exampleAddress 0 ∧
      (q.2.pubKey = exampleKey 0 → ∃ quote ∈ exampleIssued, SameSigned quote q.2) := by
  obtain ⟨s, hs, c, hc, hdone⟩ : ∃ s ∈ exampleSingleActions.foldlM
      (Verifier.step (exampleIdealEvm examplePayment) (exampleAddress 0)) .new,
      ∃ c ∈ s.calls, isVerified examplePayment (seconds 100) exampleResults c := by decide +kernel
  have hfirst : ∀ q ∈ examplePayment.peerQuotes, q.2.pubKey = exampleKey 0 → q.2 ∈ exampleIssued := by
    decide +kernel
  have hissued : SignsIssued (exampleIdealEvm examplePayment)
      (exampleSignedBy examplePayment (exampleKey 0)) exampleIssued := by
    rintro quote ⟨q, hq, hkey, hmessage⟩
    exact ⟨q.2, hfirst q hq hkey, hmessage.symm⟩
  have hinj : ∀ q ∈ examplePayment.peerQuotes, ∀ quote ∈ exampleIssued,
      bytesForSig (exampleIdealEvm examplePayment) quote =
        bytesForSig (exampleIdealEvm examplePayment) q.2 → SameSigned quote q.2 := by
    unfold SameSigned
    decide +kernel
  obtain ⟨-, q, hq, hrewards, -, -, -, -, -, hown⟩ := accepted_names_node clear
    (idealSignatures_example examplePayment) hissued
    (peerId_example examplePayment) hinj (runs_iff.2 hs) hc hdone
  exact ⟨s, c, hc, runs_iff.2 hs, hdone, q, hq, hrewards, hown⟩

/-- Five self-made quotes; one carries the node's address.  The node has signed nothing. -/
def forgedPayment : ProofOfPayment :=
  ⟨(List.range 5).map fun n => exampleQuote exampleContent (seconds n) (n + 10) (exampleAddress n)⟩

theorem not_accepted_own : ∃ s, ∃ c ∈ s.calls,
    IdealSignatures (exampleIdealEvm forgedPayment) (exampleSignedBy forgedPayment) ∧
    (∀ q ∈ forgedPayment.peerQuotes, ∀ q' ∈ forgedPayment.peerQuotes,
      bytesForSig (exampleIdealEvm forgedPayment) q.2 =
        bytesForSig (exampleIdealEvm forgedPayment) q'.2 → SameSigned q.2 q'.2) ∧
    Runs (Verifier.step (exampleIdealEvm forgedPayment) (exampleAddress 0)) .new
      exampleSingleActions s ∧
    isVerified forgedPayment (seconds 100) exampleResults c ∧
    exampleSignedBy forgedPayment (exampleKey 0) = ∅ ∧
    ∀ q ∈ forgedPayment.peerQuotes, q.2.pubKey ≠ exampleKey 0 := by
  obtain ⟨s, hs, c, hc, hdone⟩ : ∃ s ∈ exampleSingleActions.foldlM
      (Verifier.step (exampleIdealEvm forgedPayment) (exampleAddress 0)) .new,
      ∃ c ∈ s.calls, isVerified forgedPayment (seconds 100) exampleResults c := by decide +kernel
  have hkeys : ∀ q ∈ forgedPayment.peerQuotes, q.2.pubKey ≠ exampleKey 0 := by decide +kernel
  refine ⟨s, c, hc, idealSignatures_example forgedPayment, ?_, runs_iff.2 hs, hdone, ?_, hkeys⟩
  · unfold SameSigned
    decide +kernel
  · rw [Set.eq_empty_iff_forall_notMem]
    rintro message ⟨q, hq, hkey, -⟩
    exact hkeys q hq hkey

end Example

end Autonomi.AntNode
