/-
  What a node's database holds, in every run: chunks at their addresses, each one
  that was put paid for, and no more of them than there may be.
-/
import Autonomi.Node.Store

namespace Autonomi.AntNode

open Lib

namespace NodeState

variable (P : Primitives) (E : Evm) (localRewardsAddress : RewardsAddress)

/-- The chunk is small enough and stands at its address. -/
def Valid (request : ChunkPutRequest) : Prop :=
  request.content.length ≤ maxChunkSize ∧ computeAddress P request.content = request.address

/-- The store has answered that the chunk is there. -/
def Stored : PutState → Prop
  | .recordStored | .recordType | .recordPayment | .done (.success _) => True
  | _ => False

/-- What has been checked where a call is. -/
def PutOk (v : Verifier) (p : PutCall) : Prop :=
  match p.state with
  | .start | .done _ => True
  | .verifying k => Valid P p.request ∧
    (v.calls[k]?).map VerifyCall.xorname = some p.request.address
  | .writing | .recordStored | .recordType | .recordPayment =>
    Valid P p.request ∧ v.Passed E localRewardsAddress p.request.address

/-- The call that has written this entry. -/
def Wrote (v : Verifier) (address : XorName) (content : Bytes) (p : PutCall) : Prop :=
  p.request.address = address ∧ p.request.content = content ∧ Stored p.state ∧
    Valid P p.request ∧ v.Passed E localRewardsAddress address

/-- The database and its changes, from the start. -/
structure DbOk (start : LmdbStorage) (s : NodeState) : Prop where
  replay : s.storage.db = s.changes.foldl DbChange.apply start.db
  config : s.storage.config = start.config
  entries : ∀ e ∈ s.storage.db.entries,
    e ∈ start.db.entries ∨ ∃ i, .put i e.1 e.2 ∈ s.changes
  capacity : 0 < start.config.maxChunks → start.db.keys.length ≤ start.config.maxChunks →
    s.storage.db.keys.length ≤ start.config.maxChunks

structure PutsOk (s : NodeState) : Prop where
  calls : ∀ p ∈ s.puts, PutOk P E localRewardsAddress s.verifier p
  written : ∀ i address content, .put i address content ∈ s.changes →
    ∃ p, s.puts[i]? = some p ∧ Wrote P E localRewardsAddress s.verifier address content p

structure Inv (start : LmdbStorage) (s : NodeState) : Prop where
  verifier : s.verifier.Inv E localRewardsAddress
  db : DbOk start s
  puts : PutsOk P E localRewardsAddress s

variable {P E localRewardsAddress} {start : LmdbStorage} {s s' : NodeState} {v v' : Verifier}
  {p : PutCall} {i : ℕ} {state : PutState}

/-! ## The database -/

theorem DbOk.of_eq (h : DbOk start s) (hdb : s'.storage.db = s.storage.db)
    (hconfig : s'.storage.config = s.storage.config) (hchanges : s'.changes = s.changes) :
    DbOk start s' := by
  obtain ⟨hreplay, hcfg, hentries, hcap⟩ := h
  exact ⟨by rw [hdb, hchanges, hreplay], by rw [hconfig, hcfg], by rwa [hdb, hchanges],
    by rwa [hdb]⟩

theorem DbOk.insert {address : XorName} {content : Bytes} (h : DbOk start s)
    (hnew : address ∉ s.storage.db)
    (hroom : 0 < s.storage.config.maxChunks → s.storage.db.keys.length < s.storage.config.maxChunks)
    (hdb : s'.storage.db = s.storage.db.insert address content)
    (hconfig : s'.storage.config = s.storage.config)
    (hchanges : s'.changes = s.changes ++ [.put i address content]) : DbOk start s' := by
  refine ⟨?_, by rw [hconfig, h.config], fun e he => ?_, fun hpos hstart => ?_⟩
  · rw [hdb, hchanges, List.foldl_concat, ← h.replay]
    rfl
  · rw [hdb, AList.entries_insert_of_notMem hnew] at he
    rw [hchanges]
    rcases List.mem_cons.1 he with rfl | he
    · exact .inr ⟨i, by simp⟩
    · rcases h.entries e he with hstart | ⟨j, hj⟩
      · exact .inl hstart
      · exact .inr ⟨j, List.mem_append_left _ hj⟩
  · rw [hdb, AList.keys_insert, List.erase_of_not_mem hnew, List.length_cons]
    rw [← h.config] at hpos ⊢
    exact hroom hpos

theorem DbOk.erase {address : XorName} (h : DbOk start s)
    (hdb : s'.storage.db = s.storage.db.erase address)
    (hconfig : s'.storage.config = s.storage.config)
    (hchanges : s'.changes = s.changes ++ [.delete address]) : DbOk start s' := by
  refine ⟨?_, by rw [hconfig, h.config], fun e he => ?_, fun hpos hstart => ?_⟩
  · rw [hdb, hchanges, List.foldl_concat, ← h.replay]
    rfl
  · rw [hdb] at he
    rw [hchanges]
    rcases h.entries e ((List.kerase_sublist _ _).subset he) with hstart | ⟨j, hj⟩
    · exact .inl hstart
    · exact .inr ⟨j, List.mem_append_left _ hj⟩
  · rw [hdb, AList.keys_erase]
    exact (List.length_erase_le).trans (h.capacity hpos hstart)

/-! ## The calls -/

/-- What later states of the verifier keep. -/
def VerifierLe (E : Evm) (localRewardsAddress : RewardsAddress) (v v' : Verifier) : Prop :=
  (∀ x, v.Passed E localRewardsAddress x → v'.Passed E localRewardsAddress x) ∧
    ∀ (k : ℕ) x, (v.calls[k]?).map VerifyCall.xorname = some x →
      (v'.calls[k]?).map VerifyCall.xorname = some x

theorem VerifierLe.refl (v : Verifier) : VerifierLe E localRewardsAddress v v :=
  ⟨fun _ h => h, fun _ _ h => h⟩

theorem VerifierLe.of_step {a : VerifyAction} (h : v.step E localRewardsAddress a = some v') :
    VerifierLe E localRewardsAddress v v' :=
  ⟨fun _ => Verifier.Passed.step h, fun _ _ => Verifier.xorname_step h⟩

theorem PutOk.mono (hle : VerifierLe E localRewardsAddress v v')
    (h : PutOk P E localRewardsAddress v p) : PutOk P E localRewardsAddress v' p := by
  unfold PutOk at h ⊢
  split at h
  · trivial
  · trivial
  · exact ⟨h.1, hle.2 _ _ h.2⟩
  all_goals exact ⟨h.1, hle.1 _ h.2⟩

theorem Wrote.mono {address : XorName} {content : Bytes} (hle : VerifierLe E localRewardsAddress v v')
    (h : Wrote P E localRewardsAddress v address content p) :
    Wrote P E localRewardsAddress v' address content p := by
  obtain ⟨haddr, hcontent, hstored, hvalid, hpassed⟩ := h
  exact ⟨haddr, hcontent, hstored, hvalid, hle.1 _ hpassed⟩

/-- The verifier goes on, and nothing else. -/
theorem PutsOk.of_verifier (h : PutsOk P E localRewardsAddress s)
    (hle : VerifierLe E localRewardsAddress s.verifier s'.verifier) (hputs : s'.puts = s.puts)
    (hchanges : ∀ j a c, .put j a c ∈ s'.changes → .put j a c ∈ s.changes) :
    PutsOk P E localRewardsAddress s' := by
  refine ⟨fun p hp => (h.calls p (hputs ▸ hp)).mono hle, fun j a c hj => ?_⟩
  obtain ⟨p, hp, hw⟩ := h.written j a c (hchanges j a c hj)
  exact ⟨p, by rw [hputs, hp], hw.mono hle⟩

/-- One call goes on, and may have written. -/
theorem PutsOk.set (h : PutsOk P E localRewardsAddress s) (hi : s.puts[i]? = some p)
    (hle : VerifierLe E localRewardsAddress s.verifier s'.verifier)
    (hputs : s'.puts = s.puts.set i { p with state := state })
    (hstored : Stored p.state → Stored state)
    (hok : PutOk P E localRewardsAddress s'.verifier { p with state := state })
    (hchanges : ∀ j a c, .put j a c ∈ s'.changes → .put j a c ∈ s.changes ∨
      j = i ∧ Wrote P E localRewardsAddress s'.verifier a c { p with state := state }) :
    PutsOk P E localRewardsAddress s' := by
  have hlt := (List.getElem?_eq_some_iff.1 hi).1
  refine ⟨?_, fun j a c hj => ?_⟩
  · rw [hputs]
    exact forall_mem_set (fun q hq => (h.calls q hq).mono hle) hok
  · rw [hputs]
    rcases hchanges j a c hj with hj | ⟨rfl, hw⟩
    · obtain ⟨q, hq, hw⟩ := h.written j a c hj
      by_cases hij : i = j
      · subst hij
        rw [hi] at hq
        cases hq
        obtain ⟨haddr, hcontent, hst, hvalid, hpassed⟩ := hw.mono hle
        exact ⟨_, List.getElem?_set_self hlt, haddr, hcontent, hstored hst, hvalid, hpassed⟩
      · exact ⟨q, by rw [List.getElem?_set_ne hij, hq], hw.mono hle⟩
    · exact ⟨_, List.getElem?_set_self hlt, hw⟩

/-! ## The steps -/

theorem valid_of_putChecked {storage : LmdbStorage} {request : ChunkPutRequest} {faults : Faults}
    (h : putChecked P storage request faults = none) : Valid P request := by
  rw [putChecked] at h
  by_cases hsize : maxChunkSize < request.content.length
  · rw [if_pos hsize] at h; cases h
  · by_cases haddr : computeAddress P request.content ≠ request.address
    · rw [if_neg hsize, if_pos haddr] at h; cases h
    · exact ⟨by omega, by simpa using haddr⟩

theorem putChecked_ne_success {storage : LmdbStorage} {request : ChunkPutRequest} {faults : Faults}
    {response : ChunkPutResponse} (h : putChecked P storage request faults = some response) :
    ¬ Stored (.done response) := by
  rw [putChecked] at h
  split_ifs at h
  · cases h; exact id
  · cases h; exact id
  · split at h <;> cases h <;> exact id

theorem paymentRefused_ne_success {result : Except Error PaymentStatus} {response : ChunkPutResponse}
    (h : paymentRefused result = some response) : ¬ Stored (.done response) := by
  unfold paymentRefused at h
  split at h
  · split_ifs at h
    cases h; exact id
  · cases h; exact id

theorem canStore_of_paymentRefused {result : Except Error PaymentStatus}
    (h : paymentRefused result = none) : ∃ status, result = .ok status ∧ status.canStore = true := by
  unfold paymentRefused at h
  split at h
  · rename_i status
    split_ifs at h with hstore
    exact ⟨status, rfl, hstore⟩
  · cases h

theorem Inv.append (h : Inv P E localRewardsAddress start s) (request : ChunkPutRequest) :
    Inv P E localRewardsAddress start { s with puts := s.puts ++ [⟨request, .start⟩] } := by
  refine ⟨h.verifier, h.db.of_eq rfl rfl rfl, forall_mem_append h.puts.calls trivial, ?_⟩
  intro j a c hj
  obtain ⟨p, hp, hw⟩ := h.puts.written j a c hj
  exact ⟨p, by rw [List.getElem?_append_left (List.getElem?_eq_some_iff.1 hp).1, hp], hw⟩

theorem Inv.check {faults : Faults} (h : Inv P E localRewardsAddress start s)
    (hi : s.puts[i]? = some p) (hstate : p.state = .start) :
    Inv P E localRewardsAddress start (s.check P i p faults) := by
  have hstart : ¬ Stored p.state := by rw [hstate]; exact id
  rw [NodeState.check]
  rcases hc : putChecked P s.storage p.request faults with _ | response
  · have hcall : s.verifier.step E localRewardsAddress (.call p.request.address p.request.paymentProof) =
        some { s.verifier with
          calls := s.verifier.calls ++ [⟨p.request.address, p.request.paymentProof, .start⟩] } := rfl
    refine ⟨h.verifier.step hcall, h.db.of_eq rfl rfl rfl, h.puts.set hi (.of_step hcall) rfl
      (fun hs => absurd hs hstart) ⟨valid_of_putChecked hc, ?_⟩ fun j a c hj => .inl hj⟩
    simp
  · exact ⟨h.verifier, h.db.of_eq rfl rfl rfl, h.puts.set hi (.refl _) rfl
      (fun hs => absurd hs hstart) trivial fun j a c hj => .inl hj⟩

theorem Inv.verified {k : ℕ} {c : VerifyCall} {result : Except Error PaymentStatus}
    {evidence : Option Evidence} {faults : Faults} (h : Inv P E localRewardsAddress start s)
    (hi : s.puts[i]? = some p) (hstate : p.state = .verifying k) (hk : s.verifier.calls[k]? = some c)
    (hdone : c.state = .done result evidence) :
    Inv P E localRewardsAddress start (s.verified P i p result faults) := by
  have hstart : ¬ Stored p.state := by rw [hstate]; exact id
  have hok := h.puts.calls p (List.mem_of_getElem? hi)
  rw [PutOk, hstate] at hok
  rw [NodeState.verified]
  rcases hr : paymentRefused result with _ | response
  · obtain ⟨status, rfl, hstore⟩ := canStore_of_paymentRefused hr
    have hx : c.xorname = p.request.address := by
      have := hok.2
      rw [hk] at this
      exact Option.some.inj this
    have hpassed : s.verifier.Passed E localRewardsAddress p.request.address :=
      hx ▸ h.verifier.passed_of_done (List.mem_of_getElem? hk) hdone hstore
    rcases LmdbStorage.putBegin_cases P s.storage p.request.address p.request.content faults with
      ⟨e, hb⟩ | ⟨-, hb⟩ | ⟨-, hb⟩
    · rw [hb]
      exact ⟨h.verifier, h.db.of_eq rfl rfl rfl, h.puts.set hi (.refl _) rfl
        (fun hs => absurd hs hstart) trivial fun j a c hj => .inl hj⟩
    · rw [hb]
      exact ⟨h.verifier, h.db.of_eq rfl rfl rfl, h.puts.set hi (.refl _) rfl
        (fun hs => absurd hs hstart) ⟨hok.1, hpassed⟩ fun j a c hj => .inl hj⟩
    · rw [hb]
      exact ⟨h.verifier, h.db.of_eq rfl rfl rfl, h.puts.set hi (.refl _) rfl
        (fun hs => absurd hs hstart) ⟨hok.1, hpassed⟩ fun j a c hj => .inl hj⟩
  · exact ⟨h.verifier, h.db.of_eq rfl rfl rfl, h.puts.set hi (.refl _) rfl
      (fun hs => absurd hs hstart) trivial fun j a c hj => .inl hj⟩

theorem Inv.write {faults : Faults} (h : Inv P E localRewardsAddress start s)
    (hi : s.puts[i]? = some p) (hstate : p.state = .writing) :
    Inv P E localRewardsAddress start (s.write i p faults) := by
  have hstart : ¬ Stored p.state := by rw [hstate]; exact id
  have hok := h.puts.calls p (List.mem_of_getElem? hi)
  rw [PutOk, hstate] at hok
  rw [NodeState.write]
  rcases LmdbStorage.putTask_cases s.storage p.request.address p.request.content faults with
    ⟨e, hb⟩ | ⟨-, hb⟩ | ⟨hnew, hroom, hb⟩
  · rw [hb]
    exact ⟨h.verifier, h.db.of_eq rfl rfl (by simp), h.puts.set hi (.refl _) rfl
      (fun hs => absurd hs hstart) trivial fun j a c hj => .inl (by simpa using hj)⟩
  · rw [hb]
    exact ⟨h.verifier, h.db.of_eq rfl rfl (by simp), h.puts.set hi (.refl _) rfl
      (fun hs => absurd hs hstart) hok fun j a c hj => .inl (by simpa using hj)⟩
  · rw [hb]
    refine ⟨h.verifier, h.db.insert (i := i) hnew hroom rfl rfl (by simp), h.puts.set hi (.refl _) rfl
      (fun hs => absurd hs hstart) hok fun j a c hj => ?_⟩
    rcases List.mem_append.1 hj with hj | hj
    · exact .inl hj
    · rw [if_pos rfl, List.mem_singleton] at hj
      cases hj
      exact .inr ⟨rfl, rfl, rfl, trivial, hok.1, hok.2⟩

/-- The counters after a store. -/
theorem Inv.record {metrics : QuotingMetricsTracker} (h : Inv P E localRewardsAddress start s)
    (hi : s.puts[i]? = some p) (hstored : Stored state)
    (hok : PutOk P E localRewardsAddress s.verifier p →
      PutOk P E localRewardsAddress s.verifier { p with state := state }) :
    Inv P E localRewardsAddress start { s.set i p state with metrics := metrics } :=
  ⟨h.verifier, h.db.of_eq rfl rfl rfl, h.puts.set hi (.refl _) rfl (fun _ => hstored)
    (hok (h.puts.calls p (List.mem_of_getElem? hi))) fun _ _ _ hj => .inl hj⟩

theorem Inv.delete {address : XorName} {faults : Faults} (h : Inv P E localRewardsAddress start s) :
    Inv P E localRewardsAddress start (s.delete address faults) := by
  rw [NodeState.delete]
  rcases LmdbStorage.delete_cases s.storage address faults with ⟨e, hd⟩ | ⟨deleted, hd⟩
  · rw [hd]
    exact ⟨h.verifier, h.db.of_eq rfl rfl (by simp [Except.toOption]),
      h.puts.of_verifier (.refl _) rfl fun j a c hj => by simpa [Except.toOption] using hj⟩
  · rw [hd]
    exact ⟨h.verifier, h.db.erase rfl rfl (by simp [Except.toOption]),
      h.puts.of_verifier (.refl _) rfl fun j a c hj => by simpa [Except.toOption] using hj⟩

/-- A step of the call `i`, and where the call was. -/
theorem of_bind {β : Type} {next : PutCall → Option β} {b : β}
    (h : (do let p ← s.puts[i]?; next p) = some b) :
    ∃ p, s.puts[i]? = some p ∧ next p = some b :=
  Option.bind_eq_some_iff.1 h

theorem verify_step {a : VerifyAction}
    (hstep : s.step P E localRewardsAddress (.verify a) = some s') :
    ∃ v, s.verifier.step E localRewardsAddress a = some v ∧ s' = { s with verifier := v } := by
  cases a with
  | call => cases hstep
  | evict | evictPool => cases hstep; exact ⟨_, rfl, rfl⟩
  | _ =>
    obtain ⟨v, hv, hstep⟩ := Option.bind_eq_some_iff.1 hstep
    exact ⟨v, hv, (Option.some.inj hstep).symm⟩

theorem Inv.step {a : NodeAction} (h : Inv P E localRewardsAddress start s)
    (hstep : s.step P E localRewardsAddress a = some s') : Inv P E localRewardsAddress start s' := by
  cases a with
  | put request => cases hstep; exact h.append request
  | check i faults =>
    obtain ⟨p, hi, hstep⟩ := of_bind hstep
    split_ifs at hstep with hstate
    cases hstep
    exact h.check hi hstate
  | verify a =>
    obtain ⟨v, hv, rfl⟩ := verify_step hstep
    exact ⟨h.verifier.step hv, h.db.of_eq rfl rfl rfl,
      h.puts.of_verifier (.of_step hv) rfl fun _ _ _ hj => hj⟩
  | verified i faults =>
    obtain ⟨p, hi, hstep⟩ := of_bind hstep
    split at hstep
    · rename_i k hstate
      obtain ⟨c, hk, hstep⟩ := Option.bind_eq_some_iff.1 hstep
      split at hstep
      · rename_i hdone
        cases hstep
        exact h.verified hi hstate hk hdone
      · cases hstep
    · cases hstep
  | write i faults =>
    obtain ⟨p, hi, hstep⟩ := of_bind hstep
    split_ifs at hstep with hstate
    cases hstep
    exact h.write hi hstate
  | recordStored i =>
    obtain ⟨p, hi, hstep⟩ := of_bind hstep
    split_ifs at hstep with hstate
    cases hstep
    exact h.record hi trivial fun hok => by simpa [PutOk, hstate] using hok
  | recordType i =>
    obtain ⟨p, hi, hstep⟩ := of_bind hstep
    split_ifs at hstep with hstate
    cases hstep
    exact h.record hi trivial fun hok => by simpa [PutOk, hstate] using hok
  | recordPayment i =>
    obtain ⟨p, hi, hstep⟩ := of_bind hstep
    split_ifs at hstep with hstate
    cases hstep
    exact h.record hi trivial fun _ => trivial
  | get address faults =>
    cases hstep
    obtain ⟨hdb, hconfig, -⟩ := LmdbStorage.get_frame P s.storage address faults
    exact ⟨h.verifier, h.db.of_eq hdb hconfig rfl,
      h.puts.of_verifier (.refl _) rfl fun _ _ _ hj => hj⟩
  | quote request => cases hstep; exact h
  | delete address faults => cases hstep; exact h.delete

theorem inv_open (metrics : QuotingMetricsTracker) :
    Inv P E localRewardsAddress start (.open start metrics) :=
  ⟨Verifier.inv_new, ⟨rfl, rfl, fun _ he => .inl he, fun _ h => h⟩, by simp [NodeState.open],
    by simp [NodeState.open]⟩

/-- **The store holds what was paid for**: every entry stands at the hash of its content; those that
    were put are small enough, and a verification has passed for their address; there are no more
    than there may be; and a PUT that does not answer with success has written nothing. -/
theorem store_safe {metrics : QuotingMetricsTracker} {as : List NodeAction}
    (hstart : ∀ e ∈ start.db.entries, computeAddress P e.2 = e.1)
    (h : Runs (NodeState.step P E localRewardsAddress) (.open start metrics) as s) :
    (∀ e ∈ s.storage.db.entries, computeAddress P e.2 = e.1) ∧
    (∀ e ∈ s.storage.db.entries, e ∈ start.db.entries ∨ ∃ i, .put i e.1 e.2 ∈ s.changes) ∧
    (∀ i address content, .put i address content ∈ s.changes → content.length ≤ maxChunkSize ∧
      s.verifier.Passed E localRewardsAddress address) ∧
    (0 < start.config.maxChunks → start.db.keys.length ≤ start.config.maxChunks →
      s.storage.db.keys.length ≤ start.config.maxChunks) ∧
    s.storage.db = s.changes.foldl DbChange.apply start.db ∧
    ∀ i p response, s.puts[i]? = some p → p.state = .done response →
      (∀ address, response ≠ .success address) → ∀ address content,
        .put i address content ∉ s.changes := by
  have hinv := h.invariant (fun _ _ _ _ hs hstep => Inv.step hs hstep) (inv_open metrics)
  refine ⟨fun e he => ?_, hinv.db.entries, fun i address content hj => ?_, hinv.db.capacity,
    hinv.db.replay, fun i p response hi hdone hfail address content hj => ?_⟩
  · rcases hinv.db.entries e he with he | ⟨i, hj⟩
    · exact hstart e he
    · obtain ⟨p, -, haddr, hcontent, -, hvalid, -⟩ := hinv.puts.written i _ _ hj
      rw [← haddr, ← hcontent, hvalid.2]
  · obtain ⟨p, -, -, hcontent, -, hvalid, hpassed⟩ := hinv.puts.written i _ _ hj
    exact ⟨hcontent ▸ hvalid.1, hpassed⟩
  · obtain ⟨q, hq, -, -, hstored, -⟩ := hinv.puts.written i _ _ hj
    rw [hi] at hq
    cases hq
    rw [hdone] at hstored
    cases response with
    | success a => exact hfail a rfl
    | alreadyExists | paymentRequired | error => exact hstored

end NodeState

/-! ## A chunk is put twice -/

section Example

def exampleStorage : LmdbStorage := ⟨∅, ⟨true, 2⟩, ⟨0, 0, 0, 0, 0, 0⟩⟩

def exampleTracker : QuotingMetricsTracker := ⟨0, 1000, 0, [], 500⟩

def exampleRequestPut : ChunkPutRequest := ⟨exampleContent, [5], some exampleProofBytes⟩

/-- The verification of the `i`-th call, until its payment is found in the chain. -/
def exampleVerify (i : ℕ) : List NodeAction :=
  [.verify (.check i (seconds 100)), .verify (.signatures i none),
    .verify (.vault i (.ok exampleResults)), .verify (.insert i)]

def exampleRecord (i : ℕ) : List NodeAction := [.recordStored i, .recordType i, .recordPayment i]

/-- The second request comes when the first is answered. -/
def examplePutActions : List NodeAction :=
  [.put exampleRequestPut, .check 0 .none] ++ exampleVerify 0 ++
    [.verified 0 .none, .write 0 .none] ++ exampleRecord 0 ++
    [.put exampleRequestPut, .check 1 .none]

theorem store_safe_twice : ∃ s,
    Runs (NodeState.step clear (exampleEvm examplePayment) (exampleAddress 0))
      (.open exampleStorage exampleTracker) examplePutActions s ∧
    s.puts.map PutCall.state =
      [.done (.success exampleContent), .done (.alreadyExists exampleContent)] ∧
    (∀ i address content, .put i address content ∈ s.changes → content.length ≤ maxChunkSize ∧
      s.verifier.Passed (exampleEvm examplePayment) (exampleAddress 0) address) ∧
    s.storage.db.keys.length ≤ 2 ∧
    ∀ address content, .put 1 address content ∉ s.changes := by
  obtain ⟨s, hs, hputs⟩ : ∃ s ∈ examplePutActions.foldlM
      (NodeState.step clear (exampleEvm examplePayment) (exampleAddress 0))
      (.open exampleStorage exampleTracker),
      s.puts = [⟨exampleRequestPut, .done (.success exampleContent)⟩,
        ⟨exampleRequestPut, .done (.alreadyExists exampleContent)⟩] := by decide +kernel
  have hstart : ∀ e ∈ exampleStorage.db.entries, computeAddress clear e.2 = e.1 := by
    simp [exampleStorage]
  obtain ⟨-, -, hpaid, hcap, -, hfailed⟩ := NodeState.store_safe hstart (runs_iff.2 hs)
  refine ⟨s, runs_iff.2 hs, by rw [hputs]; rfl, hpaid, hcap (by decide) (by decide), ?_⟩
  exact hfailed 1 _ _ (by rw [hputs]; rfl) rfl (by simp)

end Example

end Autonomi.AntNode
