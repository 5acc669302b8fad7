/-
  A node that a client has paid for: the PUT of a chunk with the proof of its
  payment, in every run of the node (`ant-node/src/payment/verifier.rs`,
  `storage/handler.rs`).
-/
import Autonomi.Node.SingleNode
import Autonomi.Node.StoreSafety

namespace Autonomi.AntNode

open Lib

/-- Where the steps of the verifier meet `U`, no call for the address that presents the proof is
    refused; `I` is the invariant that tells so. -/
structure Verifier.Admits (E : Evm) (localRewardsAddress : RewardsAddress) (address : XorName)
    (proof : Bytes) (U : Verifier → VerifyAction → Prop) (I : Verifier → Prop) : Prop where
  new : I .new
  call : ∀ v xorname paymentProof, U v (.call xorname paymentProof)
  step : ∀ v a v', U v a → I v → v.step E localRewardsAddress a = some v' → I v'
  done : ∀ v, I v → ∀ c ∈ v.calls, c.xorname = address → c.paymentProof = some proof →
    ∀ result evidence, c.state = .done result evidence →
      ∃ status, result = .ok status ∧ status.canStore = true

/-! ## The node -/

namespace NodeState

variable (U : Verifier → VerifyAction → Prop) (I : Verifier → Prop) (address : XorName)
  (content proof : Bytes)

/-- Nothing else fails of the PUTs of this request: neither the store, which has room, nor what the
    verifier needs. -/
def Undisturbed (s : NodeState) : NodeAction → Prop
  | .check i faults | .verified i faults =>
    ∀ p, s.puts[i]? = some p → p.request = ⟨address, content, some proof⟩ → faults = .none
  | .write i faults => ∀ p, s.puts[i]? = some p → p.request = ⟨address, content, some proof⟩ →
    faults = .none ∧
      (0 < s.storage.config.maxChunks → s.storage.db.keys.length < s.storage.config.maxChunks)
  | .verify a => U s.verifier a
  | _ => True

/-- Where the PUT of a chunk that was paid for may be. -/
def Storing (address : XorName) (proof : Bytes) (v : Verifier) : PutState → Prop
  | .verifying k => ∃ c, v.calls[k]? = some c ∧ c.xorname = address ∧ c.paymentProof = some proof
  | .done response => response = .success address ∨ response = .alreadyExists address
  | _ => True

/-- Neither the PUTs of this request nor their verifications are refused. -/
structure Stores (s : NodeState) : Prop where
  verifier : I s.verifier
  puts : ∀ p ∈ s.puts, p.request = ⟨address, content, some proof⟩ →
    Storing address proof s.verifier p.state

variable {U I address content proof} {P : Primitives} {E : Evm}
  {localRewardsAddress : RewardsAddress} {s s' : NodeState} {v v' : Verifier} {a : NodeAction}
  {i : ℕ} {p : PutCall} {state : PutState}

/-- A call of the verifier keeps what it was called with. -/
theorem Storing.step {a : VerifyAction} (hstep : v.step E localRewardsAddress a = some v')
    (h : Storing address proof v state) : Storing address proof v' state := by
  cases state with
  | verifying k =>
    obtain ⟨c, hk, hx, hproof⟩ := h
    rcases Verifier.step_calls hstep with
      ⟨x, p, hcalls, -⟩ | ⟨i, c', state, -, hi, -, hcalls, -⟩ | ⟨hcalls, -⟩
    · refine ⟨c, ?_, hx, hproof⟩
      rw [hcalls, List.getElem?_append_left (List.getElem?_eq_some_iff.1 hk).1, hk]
    · by_cases hik : i = k
      · subst hik
        cases hi.symm.trans hk
        refine ⟨{ c with state := state }, ?_, hx, hproof⟩
        rw [hcalls, List.getElem?_set_self (List.getElem?_eq_some_iff.1 hk).1]
      · exact ⟨c, by rw [hcalls, List.getElem?_set_ne hik, hk], hx, hproof⟩
    · exact ⟨c, by rw [hcalls, hk], hx, hproof⟩
  | done response => exact h
  | start | writing | recordStored | recordType | recordPayment => trivial

theorem Stores.set (h : s.Stores I address content proof)
    (hok : p.request = ⟨address, content, some proof⟩ → Storing address proof s.verifier state) :
    ∀ q ∈ (s.set i p state).puts, q.request = ⟨address, content, some proof⟩ →
      Storing address proof s.verifier q.state :=
  forall_mem_set h.puts hok

/-- What a sound store comes to. -/
theorem putChecked_none (hsize : content.length ≤ maxChunkSize)
    (haddress : computeAddress P content = address) (storage : LmdbStorage) :
    putChecked P storage ⟨address, content, some proof⟩ .none = some (.alreadyExists address) ∨
      putChecked P storage ⟨address, content, some proof⟩ .none = none := by
  have hexists : storage.existsAt address .none = .ok (storage.db.lookup address).isSome := rfl
  rw [putChecked]
  simp only [if_neg hsize.not_gt, haddress, ne_eq, not_true_eq_false, if_false, hexists]
  cases (storage.db.lookup address).isSome
  · exact .inr rfl
  · exact .inl rfl

theorem putBegin_none (haddress : computeAddress P content = address) (storage : LmdbStorage) :
    (storage.putBegin P address content .none).1 = some (.ok false) ∨
      (storage.putBegin P address content .none).1 = none := by
  rcases LmdbStorage.putBegin_cases P storage address content .none with
    ⟨e, h⟩ | ⟨-, h⟩ | ⟨-, h⟩
  · have hexists : storage.existsAt address .none = .ok (storage.db.lookup address).isSome := rfl
    simp only [LmdbStorage.putBegin, haddress, ne_eq, not_true_eq_false, if_false, hexists] at h
    cases hfound : (storage.db.lookup address).isSome <;> rw [hfound] at h <;> cases h
  · exact .inl (by rw [h])
  · exact .inr (by rw [h])

theorem putTask_none {storage : LmdbStorage}
    (hroom : 0 < storage.config.maxChunks → storage.db.keys.length < storage.config.maxChunks) :
    ∃ new, (storage.putTask address content .none).1 = .ok new := by
  have htxn : ∃ r, storage.putTxn address content .none = .ok r := by
    simp only [LmdbStorage.putTxn, Faults.none, attempt, bind, Except.bind]
    by_cases hfound : (storage.db.lookup address).isSome
    · exact ⟨_, if_pos hfound⟩
    · rw [if_neg hfound]
      by_cases hmax : 0 < storage.config.maxChunks
      · rw [if_pos hmax, if_neg (hroom hmax).not_ge]
        exact ⟨_, rfl⟩
      · rw [if_neg hmax]
        exact ⟨_, rfl⟩
  obtain ⟨⟨new, db⟩, htxn⟩ := htxn
  rw [LmdbStorage.putTask, htxn]
  cases new
  · exact ⟨false, rfl⟩
  · exact ⟨true, rfl⟩

theorem Stores.step
    (hadmits : Verifier.Admits E localRewardsAddress address proof U I)
    (hsize : content.length ≤ maxChunkSize) (haddress : computeAddress P content = address)
    (hun : s.Undisturbed U address content proof a) (h : s.Stores I address content proof)
    (hstep : s.step P E localRewardsAddress a = some s') : s'.Stores I address content proof := by
  cases a with
  | put request =>
    cases hstep
    exact ⟨h.verifier, forall_mem_append h.puts fun _ => trivial⟩
  | check i faults =>
    obtain ⟨p, hi, hstep⟩ := of_bind hstep
    split_ifs at hstep with hstate
    cases hstep
    rw [NodeState.check]
    rcases hchecked : putChecked P s.storage p.request faults with _ | response
    · have hcall : s.verifier.step E localRewardsAddress
          (.call p.request.address p.request.paymentProof) = some { s.verifier with
            calls := s.verifier.calls ++ [⟨p.request.address, p.request.paymentProof, .start⟩] } := rfl
      refine ⟨hadmits.step _ _ _ (hadmits.call _ _ _) h.verifier hcall, ?_⟩
      refine forall_mem_set (fun q hq hrequest => ?_) fun hrequest => ?_
      · exact (h.puts q hq hrequest).step hcall
      · have hrequest : p.request = ⟨address, content, some proof⟩ := hrequest
        refine ⟨⟨p.request.address, p.request.paymentProof, .start⟩, by simp, ?_, ?_⟩
        · rw [hrequest]
        · rw [hrequest]
    · refine ⟨h.verifier, h.set fun hrequest => ?_⟩
      rw [hrequest, hun p hi hrequest] at hchecked
      have hnone : putChecked P s.storage ⟨address, content, some proof⟩ .none = some (.alreadyExists address) ∨
          putChecked P s.storage ⟨address, content, some proof⟩ .none = none :=
        putChecked_none hsize haddress s.storage
      rcases hnone with hc | hc
      · rw [hc] at hchecked
        cases hchecked
        exact .inr rfl
      · rw [hc] at hchecked
        cases hchecked
  | verify a =>
    obtain ⟨v, hv, rfl⟩ := verify_step hstep
    exact ⟨hadmits.step _ _ _ hun h.verifier hv, fun p hp hrequest => (h.puts p hp hrequest).step hv⟩
  | verified i faults =>
    obtain ⟨p, hi, hstep⟩ := of_bind hstep
    split at hstep
    · rename_i k hstate
      obtain ⟨c, hk, hstep⟩ := Option.bind_eq_some_iff.1 hstep
      split at hstep
      · rename_i result evidence hdone
        cases hstep
        have hok : p.request = ⟨address, content, some proof⟩ →
            ∃ status, result = .ok status ∧ status.canStore = true := by
          intro hrequest
          have hstoring := h.puts p (List.mem_of_getElem? hi) hrequest
          rw [hstate] at hstoring
          obtain ⟨c', hk', hx, hproof⟩ := hstoring
          cases hk.symm.trans hk'
          exact hadmits.done _ h.verifier c (List.mem_of_getElem? hk) hx hproof _ _ hdone
        rw [NodeState.verified]
        rcases hrefused : paymentRefused result with _ | response
        · dsimp only
          have hbegin : p.request = ⟨address, content, some proof⟩ →
              (s.storage.putBegin P p.request.address p.request.content faults).1 =
                some (.ok false) ∨
              (s.storage.putBegin P p.request.address p.request.content faults).1 = none := by
            intro hrequest
            rw [hrequest, hun p hi hrequest]
            exact putBegin_none haddress s.storage
          rcases hb : s.storage.putBegin P p.request.address p.request.content faults with
            ⟨_ | stored, storage⟩
          · exact ⟨h.verifier, h.set fun _ => trivial⟩
          · refine ⟨h.verifier, h.set fun hrequest => ?_⟩
            have hstored := hbegin hrequest
            rw [hb] at hstored
            rcases hstored with hstored | hstored <;> cases hstored
            trivial
        · refine ⟨h.verifier, h.set fun hrequest => ?_⟩
          obtain ⟨status, rfl, hstore⟩ := hok hrequest
          rw [paymentRefused, if_pos hstore] at hrefused
          cases hrefused
      · cases hstep
    · cases hstep
  | write i faults =>
    obtain ⟨p, hi, hstep⟩ := of_bind hstep
    split_ifs at hstep with hstate
    cases hstep
    rw [NodeState.write]
    rcases hb : s.storage.putTask p.request.address p.request.content faults with ⟨stored, storage⟩
    refine ⟨h.verifier, h.set fun hrequest => ?_⟩
    obtain ⟨rfl, hroom⟩ := hun p hi hrequest
    obtain ⟨new, hnew⟩ := putTask_none hroom
    rw [hb] at hnew
    obtain rfl : stored = .ok new := hnew
    trivial
  | recordStored i =>
    obtain ⟨p, hi, hstep⟩ := of_bind hstep
    split_ifs at hstep
    cases hstep
    exact ⟨h.verifier, h.set fun _ => trivial⟩
  | recordType i =>
    obtain ⟨p, hi, hstep⟩ := of_bind hstep
    split_ifs at hstep
    cases hstep
    exact ⟨h.verifier, h.set fun _ => trivial⟩
  | recordPayment i =>
    obtain ⟨p, hi, hstep⟩ := of_bind hstep
    split_ifs at hstep
    cases hstep
    exact ⟨h.verifier, h.set fun hrequest => .inl (by rw [hrequest])⟩
  | get address faults => cases hstep; exact ⟨h.verifier, h.puts⟩
  | quote request => cases hstep; exact h
  | delete address faults => cases hstep; exact ⟨h.verifier, h.puts⟩

variable (U address content proof P E localRewardsAddress) in
/-- In every run of the node in which nothing else fails, each PUT of the chunk with the proof that
    ends has stored it, or found it stored. -/
def StoresPut : Prop :=
  ∀ storage metrics as s, Trace (NodeState.step P E localRewardsAddress)
      (Undisturbed U address content proof) (.open storage metrics) as s →
    ∀ p ∈ s.puts, p.request = ⟨address, content, some proof⟩ → ∀ response, p.state = .done response →
      response = .success address ∨ response = .alreadyExists address

/-- A chunk whose proof is not refused is stored. -/
theorem storesPut_of_admits (hadmits : Verifier.Admits E localRewardsAddress address proof U I)
    (hsize : content.length ≤ maxChunkSize) (haddress : computeAddress P content = address) :
    StoresPut U address content proof P E localRewardsAddress := by
  intro storage metrics as s h p hp hrequest response hdone
  have hstores := h.invariant
    (fun _ _ _ hun hs hstep => Stores.step hadmits hsize haddress hun hs hstep)
    (⟨hadmits.new, by simp [NodeState.open]⟩ :
      (NodeState.open storage metrics).Stores I address content proof)
  have hstoring := hstores.puts p hp hrequest
  rwa [hdone] at hstoring

/-- Nothing fails at the store. -/
def FaultFree : NodeAction → Prop
  | .check _ faults | .verified _ faults | .write _ faults => faults = .none
  | _ => True

/-- A node whose store has no limit and does not fail is undisturbed where its verifier is. -/
theorem trace_undisturbed {storage : LmdbStorage} {metrics : QuotingMetricsTracker}
    {as : List NodeAction} (hlimit : storage.config.maxChunks = 0) (hfaults : ∀ a ∈ as, FaultFree a)
    (hverify : ∀ a, .verify a ∈ as → ∀ v, U v a)
    (h : Runs (NodeState.step P E localRewardsAddress) (.open storage metrics) as s) :
    Trace (NodeState.step P E localRewardsAddress) (Undisturbed U address content proof)
      (.open storage metrics) as s := by
  refine Trace.mono_of_invariant (fun _ _ _ _ h hstep => Inv.step h hstep) (fun s a hinv ha => ?_)
    (h.of_runs fun a ha => ha) (inv_open metrics)
  have hfaults := hfaults a ha
  cases a with
  | check i faults => exact fun _ _ _ => hfaults
  | verified i faults => exact fun _ _ _ => hfaults
  | write i faults =>
    refine fun _ _ _ => ⟨hfaults, fun hpos => absurd hpos ?_⟩
    rw [hinv.db.config, hlimit]
    exact lt_irrefl 0
  | verify a => exact hverify a ha _
  | _ => trivial

end NodeState

/-! ## A payment of quotes -/

/-- The clock of a node, for quotes made between two times. -/
def Window (since till now : SystemTime) : Prop :=
  asSecs (now - since) ≤ quoteMaxAgeSecs ∧ asSecs (till - now) ≤ quoteClockSkewToleranceSecs

instance (since till now : SystemTime) : Decidable (Window since till now) :=
  inferInstanceAs (Decidable (_ ∧ _))

/-- What the vault answers about some quotes once the wallet has made these payments: a quote that
    was paid has an amount and is valid, the others have none. -/
structure Recorded (payments : List QuotePayment) (query : List PaymentVerification)
    (results : List PaymentVerificationResult) : Prop where
  hashes : results.map PaymentVerificationResult.quoteHash = query.map PaymentVerification.quoteHash
  paid : ∀ r ∈ results, ∀ p ∈ payments, p.1 = r.quoteHash → 0 < p.2.2 →
    0 < r.amountPaid ∧ r.isValid = true
  unpaid : ∀ r ∈ results, (∀ p ∈ payments, p.1 = r.quoteHash → p.2.2 = 0) → r.amountPaid = 0

/-- The proof of a payment for fresh and signed quotes, of which this node has given one. -/
structure PaidProof (E : Evm) (localRewardsAddress : RewardsAddress) (address : XorName)
    (since till : SystemTime) (payments : List QuotePayment) (proof : Bytes)
    (payment : ProofOfPayment) : Prop where
  size : minPaymentProofSizeBytes ≤ proof.length ∧ proof.length ≤ maxPaymentProofSizeBytes
  read : ∃ txHashes, deserializeProof E proof = .ok (payment, txHashes)
  valid : ∀ now, Window since till now → QuotesValid E localRewardsAddress address now payment
  signed : QuotesSigned E payment
  paid : ∃ p ∈ payments, 0 < p.2.2 ∧ p.1 ∈ (E.digest payment).map PaymentVerification.quoteHash

variable {E : Evm} {localRewardsAddress : RewardsAddress} {address : XorName}
  {since till now timestamp : SystemTime} {payments : List QuotePayment} {proof : Bytes}
  {payment : ProofOfPayment} {query : List PaymentVerification}
  {results : List PaymentVerificationResult}

theorem Window.fresh (h : Window since till now) (hsince : since ≤ timestamp)
    (htill : timestamp ≤ till) : Fresh now timestamp :=
  ⟨(Nat.div_le_div_right (Nat.sub_le_sub_left hsince now)).trans h.1,
    (Nat.div_le_div_right (Nat.sub_le_sub_right htill now)).trans h.2⟩

theorem Recorded.paidOnChain (h : Recorded payments query results)
    (hpaid : ∃ p ∈ payments, 0 < p.2.2 ∧ p.1 ∈ query.map PaymentVerification.quoteHash) :
    PaidOnChain results := by
  obtain ⟨p, hp, hpos, hquery⟩ := hpaid
  rw [← h.hashes] at hquery
  obtain ⟨r, hr, hhash⟩ := List.mem_map.1 hquery
  refine ⟨⟨r, hr, (h.paid r hr p hp hhash.symm hpos).1⟩, fun r hr hamount => ?_⟩
  by_contra hinvalid
  refine hamount.ne' (h.unpaid r hr fun p hp hhash => ?_)
  by_contra hne
  exact hinvalid (h.paid r hr p hp hhash (Nat.pos_of_ne_zero hne)).2

namespace PaidProof

variable (h : PaidProof E localRewardsAddress address since till payments proof payment)

include h

theorem verifyBegin_eq (hnow : Window since till now) :
    Verifier.verifyBegin E localRewardsAddress address now proof =
      .ok (.signatures payment now) := by
  obtain ⟨txHashes, hread⟩ := h.read
  have hhead : proof.head? = some proofTagSingleNode := by
    by_contra hne
    rw [deserializeProof, if_pos hne] at hread
    cases hread
  have hdetect : detectProofType proof = some .singleNode := by
    rw [detectProofType, hhead]
    rfl
  have hbegin := verifyEvmBegin_eq_ok.2 (h.valid now hnow)
  simp only [Verifier.verifyBegin, ensure, if_pos h.size.1, if_pos h.size.2, hdetect, hread,
    Except.mapError, bind, Except.bind, hbegin]
  rfl

theorem signaturesChecked_eq :
    Verifier.signaturesChecked E payment now none = .vault payment now := by
  obtain ⟨p, -, -, hmem⟩ := h.paid
  have hne : E.digest payment ≠ [] := by
    rintro hnil
    rw [hnil] at hmem
    cases hmem
  have hsigned : verifyQuoteSignatures E payment = .ok () :=
    forM_eq_ok.2 fun q hq => ensure_eq_ok.2 (h.signed q hq)
  simp only [Verifier.signaturesChecked, hsigned, paymentDigest, ensure, if_pos hne, bind,
    Except.bind, pure, Except.pure]

theorem vaultAnswered_eq {xorname : XorName}
    (hrecorded : Recorded payments (E.digest payment) results) :
    Verifier.vaultAnswered xorname payment now (.ok results) =
      .insert (.singleNode payment now results) := by
  have hchecked : checkPaidResults xorname results = .ok () :=
    checkPaidResults_eq_ok.2 (hrecorded.paidOnChain h.paid)
  simp only [Verifier.vaultAnswered, verifyEvmEnd, Except.mapError, bind, Except.bind, hchecked,
    pure, Except.pure]

end PaidProof

namespace Verifier

variable (E address since till payments proof payment)

/-- Nothing else fails of a call that presents the proof: the clock stands right, the blocking task
    is run, and the vault answers what was paid. -/
def QuotesUndisturbed (v : Verifier) : VerifyAction → Prop
  | .check i now => ∀ c, v.calls[i]? = some c → c.paymentProof = some proof → Window since till now
  | .signatures i fault => ∀ c, v.calls[i]? = some c → c.paymentProof = some proof → fault = none
  | .vault i answer => ∀ c, v.calls[i]? = some c → c.paymentProof = some proof →
    ∃ results, answer = .ok results ∧ Recorded payments (E.digest payment) results
  | _ => True

/-- Where a call that presents the proof may be. -/
def Accepting (payment : ProofOfPayment) : VerifyState → Prop
  | .start | .insert _ => True
  | .signatures payment' _ | .vault payment' _ => payment' = payment
  | .done (.ok status) _ => status.canStore = true
  | _ => False

/-- A call that presents the proof is not refused. -/
def Accepts (v : Verifier) : Prop :=
  ∀ c ∈ v.calls, c.xorname = address → c.paymentProof = some proof → Accepting payment c.state

variable {E address since till payments proof payment} {v v' : Verifier} {a : VerifyAction}
  {i : ℕ} {c : VerifyCall} {state : VerifyState} {answers : List Answer}

theorem Accepts.set (h : v.Accepts address proof payment)
    (hok : c.xorname = address → c.paymentProof = some proof → Accepting payment state) :
    (v.set i c state answers).Accepts address proof payment :=
  forall_mem_set h hok

theorem Accepts.step
    (hpaid : PaidProof E localRewardsAddress address since till payments proof payment)
    (hun : v.QuotesUndisturbed E since till payments proof payment a) (h : v.Accepts address proof payment)
    (hstep : v.step E localRewardsAddress a = some v') : v'.Accepts address proof payment := by
  cases a with
  | call xorname paymentProof =>
    cases hstep
    exact forall_mem_append h fun _ _ => trivial
  | check i now =>
    obtain ⟨c, hi, hstep⟩ := of_bind hstep
    split at hstep <;> cases hstep
    refine h.set fun hx hproof => ?_
    rw [checked, hproof, hx]
    split_ifs
    · rfl
    · dsimp only
      rw [hpaid.verifyBegin_eq (hun c hi hproof)]
      rfl
  | signatures i fault =>
    obtain ⟨c, hi, hstep⟩ := of_bind hstep
    split at hstep <;> cases hstep
    rename_i payment' now hstate
    refine h.set fun hx hproof => ?_
    have hok := h c (List.mem_of_getElem? hi) hx hproof
    rw [hstate] at hok
    obtain rfl : payment' = payment := hok
    rw [hun c hi hproof, hpaid.signaturesChecked_eq]
    rfl
  | vault i answer =>
    obtain ⟨c, hi, hstep⟩ := of_bind hstep
    split at hstep <;> cases hstep
    rename_i payment' now hstate
    refine h.set fun hx hproof => ?_
    have hok := h c (List.mem_of_getElem? hi) hx hproof
    rw [hstate] at hok
    obtain rfl : payment' = payment := hok
    obtain ⟨results, rfl, hrecorded⟩ := hun c hi hproof
    rw [hpaid.vaultAnswered_eq hrecorded]
    trivial
  | poolGet i =>
    obtain ⟨c, hi, hstep⟩ := of_bind hstep
    split at hstep
    · rename_i hstate
      have hok := fun hx hproof => h c (List.mem_of_getElem? hi) hx hproof
      rw [hstate] at hok
      split at hstep <;> cases hstep <;> exact h.set fun hx hproof => (hok hx hproof).elim
    · cases hstep
  | poolQuery i answer =>
    obtain ⟨c, hi, hstep⟩ := of_bind hstep
    split at hstep <;> cases hstep
    rename_i hstate
    refine h.set fun hx hproof => ?_
    have hok := h c (List.mem_of_getElem? hi) hx hproof
    rw [hstate] at hok
    exact hok.elim
  | poolPut i =>
    obtain ⟨c, hi, hstep⟩ := of_bind hstep
    split at hstep <;> cases hstep
    rename_i hstate
    refine forall_mem_set h fun hx hproof => ?_
    have hok := h c (List.mem_of_getElem? hi) hx hproof
    rw [hstate] at hok
    exact hok.elim
  | pool i merkle =>
    obtain ⟨c, hi, hstep⟩ := of_bind hstep
    split at hstep <;> cases hstep
    rename_i hstate
    refine h.set fun hx hproof => ?_
    have hok := h c (List.mem_of_getElem? hi) hx hproof
    rw [hstate] at hok
    exact hok.elim
  | insert i =>
    obtain ⟨c, hi, hstep⟩ := of_bind hstep
    split at hstep <;> cases hstep
    exact forall_mem_set h fun _ _ => rfl
  | evict xorname => cases hstep; exact h
  | evictPool hash => cases hstep; exact h

theorem admits_paidProof
    (hpaid : PaidProof E localRewardsAddress address since till payments proof payment) :
    Admits E localRewardsAddress address proof
      (QuotesUndisturbed E since till payments proof payment) (Accepts address proof payment) := by
  refine ⟨by simp [Accepts, new], fun _ _ _ => trivial, fun v a v' hun h hstep =>
    Accepts.step hpaid hun h hstep, fun v h c hc hx hproof result evidence hdone => ?_⟩
  have hok := h c hc hx hproof
  rw [hdone] at hok
  cases result with
  | ok status => exact ⟨status, rfl, hok⟩
  | error e => exact hok.elim

end Verifier

/-! ## A merkle payment -/

/-- What the contract has for a pool: how deep the tree is, when it was paid, and who was paid. -/
abbrev Contract := PoolHash → OnChainPaymentInfo

/-- `verify_merkle_proof` of `evmlib`: address, data proof, midpoint proof, depth and time. -/
abbrev VerifyMerkleProof := XorName → Bytes → Bytes → ℕ → ℕ → Except String Unit

/-- A proof for the address from a pool that was paid. -/
structure PooledProof (E : Evm) (contract : Contract) (verify : VerifyMerkleProof)
    (address : XorName) (proof : Bytes) (merkleProof : MerklePaymentProof) : Prop where
  size : minPaymentProofSizeBytes ≤ proof.length ∧ proof.length ≤ maxPaymentProofSizeBytes
  read : deserializeMerkleProof E proof = .ok merkleProof
  names : merkleProof.address = address
  valid : PoolValid E merkleProof.winnerPool.candidateNodes
    (contract (E.poolHash merkleProof.winnerPool))
  verified : verify address merkleProof.dataProof merkleProof.winnerPool.midpointProof
    (contract (E.poolHash merkleProof.winnerPool)).depth
    (contract (E.poolHash merkleProof.winnerPool)).merklePaymentTimestamp = .ok ()

namespace PooledProof

variable {contract : Contract} {verify : VerifyMerkleProof} {merkleProof : MerklePaymentProof}

theorem verifyBegin_eq (h : PooledProof E contract verify address proof merkleProof) :
    Verifier.verifyBegin E localRewardsAddress address now proof = .ok (.poolGet merkleProof) := by
  have hread := h.read
  have hhead : proof.head? = some proofTagMerkle := by
    by_contra hne
    rw [deserializeMerkleProof, if_pos hne] at hread
    cases hread
  have hdetect : detectProofType proof = some .merkle := by
    rw [detectProofType, hhead]
    rfl
  simp only [Verifier.verifyBegin, ensure, if_pos h.size.1, if_pos h.size.2, hdetect, hread,
    Except.mapError, bind, Except.bind, if_pos h.names]
  rfl

theorem poolChecked_eq (h : PooledProof E contract verify address proof merkleProof) :
    Verifier.poolChecked E address merkleProof (contract (E.poolHash merkleProof.winnerPool))
      (.ok ()) = .insert (.merkle merkleProof (contract (E.poolHash merkleProof.winnerPool))) := by
  have hok : verifyMerkleEnd E address merkleProof (contract (E.poolHash merkleProof.winnerPool))
      (.ok ()) = .ok () := verifyMerkleEnd_eq_ok.2 ⟨rfl, h.valid⟩
  rw [Verifier.poolChecked, hok]

end PooledProof

namespace Verifier

/-- The contract answers what it has for a pool, and for a call that presents the proof it answers;
    then `verify_merkle_proof` is run. -/
def PoolUndisturbed (E : Evm) (contract : Contract) (verify : VerifyMerkleProof) (proof : Bytes)
    (v : Verifier) : VerifyAction → Prop
  | .poolQuery i answer => ∀ c p, v.calls[i]? = some c → c.state = .poolQuery p →
    (∀ info, answer = .ok info → info = contract (E.poolHash p.winnerPool)) ∧
      (c.paymentProof = some proof → ∃ info, answer = .ok info)
  | .pool i merkle => ∀ c p info, v.calls[i]? = some c → c.paymentProof = some proof →
    c.state = .pool p info → merkle = verify p.address p.dataProof p.winnerPool.midpointProof
      info.depth info.merklePaymentTimestamp
  | _ => True

/-- Where a call that presents the proof may be. -/
def Pooling (merkleProof : MerklePaymentProof) : VerifyState → Prop
  | .start | .insert _ => True
  | .poolGet p | .poolQuery p | .poolPut p _ | .pool p _ => p = merkleProof
  | .done (.ok status) _ => status.canStore = true
  | _ => False

/-- What a call knows of its pool is what the contract has. -/
def Informed (E : Evm) (contract : Contract) : VerifyState → Prop
  | .poolPut p info | .pool p info => info = contract (E.poolHash p.winnerPool)
  | _ => True

structure AcceptsPool (E : Evm) (contract : Contract) (address : XorName) (proof : Bytes)
    (merkleProof : MerklePaymentProof) (v : Verifier) : Prop where
  cache : ∀ hash info, v.poolCache.lookup hash = some info → info = contract hash
  informed : ∀ c ∈ v.calls, Informed E contract c.state
  pooling : ∀ c ∈ v.calls, c.xorname = address → c.paymentProof = some proof →
    Pooling merkleProof c.state

variable {contract : Contract} {verify : VerifyMerkleProof} {merkleProof : MerklePaymentProof}
  {v v' : Verifier} {a : VerifyAction} {i : ℕ} {c : VerifyCall} {state : VerifyState}
  {answers : List Answer}

/-- A call that is checked for signatures, or on its way to the contract, knows nothing yet. -/
theorem informed_checked (c : VerifyCall) (now : SystemTime) (cached : Bool) :
    Informed E contract (checked E localRewardsAddress c now cached) := by
  rw [checked]
  split_ifs
  · trivial
  split
  · trivial
  · split
    · rename_i hbegin
      simp only [verifyBegin, bind_eq_ok] at hbegin
      obtain ⟨_, -, _, -, hbegin⟩ := hbegin
      split at hbegin
      · obtain ⟨_, -, hbegin⟩ := bind_eq_ok.1 hbegin
        obtain ⟨_, -, hbegin⟩ := bind_eq_ok.1 hbegin
        cases hbegin
        trivial
      · obtain ⟨_, -, hbegin⟩ := bind_eq_ok.1 hbegin
        obtain ⟨_, -, hbegin⟩ := bind_eq_ok.1 hbegin
        cases hbegin
        trivial
      · cases hbegin
    · trivial

theorem AcceptsPool.set (h : AcceptsPool E contract address proof merkleProof v)
    (hinformed : Informed E contract state)
    (hok : c.xorname = address → c.paymentProof = some proof → Pooling merkleProof state) :
    AcceptsPool E contract address proof merkleProof (v.set i c state answers) :=
  ⟨h.cache, forall_mem_set h.informed hinformed, forall_mem_set h.pooling hok⟩

theorem AcceptsPool.step (hpaid : PooledProof E contract verify address proof merkleProof)
    (hun : PoolUndisturbed E contract verify proof v a)
    (h : AcceptsPool E contract address proof merkleProof v)
    (hstep : v.step E localRewardsAddress a = some v') :
    AcceptsPool E contract address proof merkleProof v' := by
  have hpooling : ∀ {i : ℕ} {c : VerifyCall}, v.calls[i]? = some c → c.xorname = address →
      c.paymentProof = some proof → Pooling merkleProof c.state :=
    fun hi hx hproof => h.pooling _ (List.mem_of_getElem? hi) hx hproof
  cases a with
  | call xorname paymentProof =>
    cases hstep
    exact ⟨h.cache, forall_mem_append h.informed trivial,
      forall_mem_append h.pooling fun _ _ => trivial⟩
  | check i now =>
    obtain ⟨c, hi, hstep⟩ := of_bind hstep
    split at hstep <;> cases hstep
    refine h.set (informed_checked _ _ _) fun hx hproof => ?_
    rw [checked, hproof, hx]
    split_ifs
    · rfl
    · dsimp only
      rw [hpaid.verifyBegin_eq]
      rfl
  | signatures i fault =>
    obtain ⟨c, hi, hstep⟩ := of_bind hstep
    split at hstep <;> cases hstep
    rename_i payment now hstate
    refine h.set ?_ fun hx hproof => ?_
    · unfold signaturesChecked
      split
      · trivial
      · split <;> trivial
    · have hok := hpooling hi hx hproof
      rw [hstate] at hok
      exact hok.elim
  | vault i answer =>
    obtain ⟨c, hi, hstep⟩ := of_bind hstep
    split at hstep <;> cases hstep
    rename_i payment now hstate
    refine h.set ?_ fun hx hproof => ?_
    · unfold vaultAnswered
      split <;> trivial
    · have hok := hpooling hi hx hproof
      rw [hstate] at hok
      exact hok.elim
  | poolGet i =>
    obtain ⟨c, hi, hstep⟩ := of_bind hstep
    split at hstep
    · rename_i p hstate
      have hok := fun hx hproof => hpooling hi hx hproof
      rw [hstate] at hok
      split at hstep <;> cases hstep
      · rename_i info hl
        exact h.set (h.cache _ _ hl) hok
      · exact h.set trivial hok
    · cases hstep
  | poolQuery i answer =>
    obtain ⟨c, hi, hstep⟩ := of_bind hstep
    split at hstep <;> cases hstep
    rename_i p hstate
    obtain ⟨hinfo, hanswers⟩ := hun c p hi hstate
    cases answer with
    | ok info =>
      refine h.set (hinfo info rfl) fun hx hproof => ?_
      have hok := hpooling hi hx hproof
      rw [hstate] at hok
      exact hok
    | error e =>
      refine h.set trivial fun _ hproof => ?_
      obtain ⟨info, hinfo⟩ := hanswers hproof
      cases hinfo
  | poolPut i =>
    obtain ⟨c, hi, hstep⟩ := of_bind hstep
    split at hstep <;> cases hstep
    rename_i p info hstate
    have hinformed := h.informed c (List.mem_of_getElem? hi)
    rw [hstate] at hinformed
    refine ⟨fun hash info' hl => ?_, forall_mem_set h.informed hinformed,
      forall_mem_set h.pooling fun hx hproof => ?_⟩
    · by_cases hhash : hash = E.poolHash p.winnerPool
      · subst hhash
        rw [AList.lookup_insert] at hl
        rw [← Option.some.inj hl]
        exact hinformed
      · rw [AList.lookup_insert_ne hhash] at hl
        exact h.cache hash info' hl
    · have hok := hpooling hi hx hproof
      rw [hstate] at hok
      exact hok
  | pool i merkle =>
    obtain ⟨c, hi, hstep⟩ := of_bind hstep
    split at hstep <;> cases hstep
    rename_i p info hstate
    refine h.set ?_ fun hx hproof => ?_
    · unfold poolChecked
      split <;> trivial
    · have hok := hpooling hi hx hproof
      have hinformed := h.informed c (List.mem_of_getElem? hi)
      rw [hstate] at hok hinformed
      obtain rfl : p = merkleProof := hok
      obtain rfl : info = contract (E.poolHash p.winnerPool) := hinformed
      rw [hun c p _ hi hproof hstate, hpaid.names, hpaid.verified, hx, hpaid.poolChecked_eq]
      trivial
  | insert i =>
    obtain ⟨c, hi, hstep⟩ := of_bind hstep
    split at hstep <;> cases hstep
    exact ⟨h.cache, forall_mem_set h.informed trivial, forall_mem_set h.pooling fun _ _ => rfl⟩
  | evict xorname => cases hstep; exact ⟨h.cache, h.informed, h.pooling⟩
  | evictPool hash =>
    cases hstep
    refine ⟨fun hash' info hl => ?_, h.informed, h.pooling⟩
    by_cases hhash : hash' = hash
    · subst hhash
      rw [AList.lookup_erase] at hl
      cases hl
    · rw [AList.lookup_erase_ne hhash] at hl
      exact h.cache hash' info hl

theorem admits_pooledProof (hpaid : PooledProof E contract verify address proof merkleProof) :
    Admits E localRewardsAddress address proof (PoolUndisturbed E contract verify proof)
      (AcceptsPool E contract address proof merkleProof) := by
  refine ⟨⟨by simp [new], by simp [new], by simp [new]⟩, fun _ _ _ => trivial,
    fun v a v' hun h hstep => AcceptsPool.step hpaid hun h hstep,
    fun v h c hc hx hproof result evidence hdone => ?_⟩
  have hok := h.pooling c hc hx hproof
  rw [hdone] at hok
  cases result with
  | ok status => exact ⟨status, rfl, hok⟩
  | error e => exact hok.elim

end Verifier

end Autonomi.AntNode
