/-
  What a node has answered for stays in its store (`ant-node/src/storage/handler.rs`,
  `storage/lmdb.rs`): nothing in a running node deletes a chunk.
-/
import Autonomi.Node.Reply
import Autonomi.Node.StoreSafety

namespace Autonomi.AntNode

open Lib

namespace NodeState

/-- No chunk is deleted. -/
def Kept : NodeAction → Prop
  | .delete _ _ => False
  | _ => True

/-- What the progress of a PUT says of the store. -/
def Held (db : Database) (address : XorName) : PutState → Prop
  | .recordStored | .recordType | .recordPayment => address ∈ db
  | .done (.success a) | .done (.alreadyExists a) => a = address ∧ address ∈ db
  | _ => True

/-- Every PUT that has been answered for is in the store. -/
def AllHeld (s : NodeState) : Prop := ∀ p ∈ s.puts, Held s.storage.db p.request.address p.state

variable {P : Primitives} {E : Evm} {localRewardsAddress : RewardsAddress} {s s' : NodeState}
  {a : NodeAction} {as : List NodeAction} {address : XorName} {content : Bytes} {db db' : Database}
  {state : PutState} {i : ℕ} {p : PutCall} {faults : Faults}

/-! ## The database -/

/-- Nothing is taken away, and nothing is replaced. -/
def Grows (db db' : Database) : Prop := ∀ a c, db.lookup a = some c → db'.lookup a = some c

theorem Grows.refl (db : Database) : Grows db db := fun _ _ hc => hc

theorem Grows.trans {db'' : Database} (h : Grows db db') (h' : Grows db' db'') : Grows db db'' :=
  fun a c hc => h' a c (h a c hc)

theorem Grows.mem (h : Grows db db') (ha : address ∈ db) : address ∈ db' := by
  obtain ⟨c, hc⟩ := Option.isSome_iff_exists.1 (AList.lookup_isSome.2 ha)
  exact AList.lookup_isSome.1 (by rw [h _ _ hc]; rfl)

theorem grows_insert (h : address ∉ db) : Grows db (db.insert address content) := by
  intro a c ha
  have hne : a ≠ address := by
    rintro rfl
    exact h (AList.lookup_isSome.1 (by rw [ha]; rfl))
  rw [AList.lookup_insert_ne hne, ha]

theorem putBegin_db (storage : LmdbStorage) :
    (storage.putBegin P address content faults).2.db = storage.db := by
  rcases LmdbStorage.putBegin_cases P storage address content faults with
    ⟨e, h⟩ | ⟨-, h⟩ | ⟨-, h⟩ <;> rw [h]

theorem grows_putTask (storage : LmdbStorage) :
    Grows storage.db (storage.putTask address content faults).2.db := by
  rcases LmdbStorage.putTask_cases storage address content faults with
    ⟨e, h⟩ | ⟨-, h⟩ | ⟨hnew, -, h⟩
  · rw [h]; exact .refl _
  · rw [h]; exact .refl _
  · rw [h]; exact grows_insert hnew

/-- A step keeps what is stored. -/
theorem grows_step (ha : Kept a) (hstep : s.step P E localRewardsAddress a = some s') :
    Grows s.storage.db s'.storage.db := by
  have hrefl := Grows.refl s.storage.db
  cases a with
  | put request => cases hstep; exact hrefl
  | check i faults =>
    obtain ⟨p, hi, hstep⟩ := of_bind hstep
    split_ifs at hstep
    cases hstep
    rw [check]
    split <;> exact hrefl
  | verify a =>
    obtain ⟨v, -, rfl⟩ := verify_step hstep
    exact hrefl
  | verified i faults =>
    obtain ⟨p, hi, hstep⟩ := of_bind hstep
    split at hstep
    · obtain ⟨c, hk, hstep⟩ := Option.bind_eq_some_iff.1 hstep
      split at hstep
      · cases hstep
        rw [verified]
        split
        · exact hrefl
        · have hdb : (s.storage.putBegin P p.request.address p.request.content faults).2.db =
              s.storage.db := putBegin_db s.storage
          split
          · rename_i heq
            rw [heq] at hdb
            change Grows s.storage.db _
            rw [← hdb]
            exact .refl _
          · exact hrefl
      · cases hstep
    · cases hstep
  | write i faults =>
    obtain ⟨p, hi, hstep⟩ := of_bind hstep
    split_ifs at hstep
    cases hstep
    exact grows_putTask s.storage
  | recordStored i | recordType i | recordPayment i =>
    obtain ⟨p, hi, hstep⟩ := of_bind hstep
    split_ifs at hstep
    cases hstep
    exact hrefl
  | get address faults =>
    cases hstep
    change Grows s.storage.db (s.storage.get P address faults).2.db
    rw [(LmdbStorage.get_frame P s.storage address faults).1]
    exact hrefl
  | quote request => cases hstep; exact hrefl
  | delete address faults => exact ha.elim

theorem grows_trace (h : Trace (NodeState.step P E localRewardsAddress) (fun _ a => Kept a) s as s') :
    Grows s.storage.db s'.storage.db :=
  h.relation (R := fun s s' => Grows s.storage.db s'.storage.db) (fun _ => .refl _) Grows.trans
    fun _ _ _ ha hstep => grows_step ha hstep

/-! ## The answers -/

theorem Held.mono (hdb : Grows db db') (h : Held db address state) : Held db' address state := by
  cases state with
  | recordStored | recordType | recordPayment => exact hdb.mem h
  | done response =>
    cases response with
    | success | alreadyExists => exact ⟨h.1, hdb.mem h.2⟩
    | paymentRequired | error => trivial
  | start | verifying | writing => trivial

theorem AllHeld.set (h : s.AllHeld) (hdb : Grows s.storage.db s'.storage.db)
    (hputs : s'.puts = s.puts.set i { p with state := state })
    (hstate : Held s'.storage.db p.request.address state) : s'.AllHeld := by
  rw [AllHeld, hputs]
  exact forall_mem_set (fun q hq => (h q hq).mono hdb) hstate

theorem held_putChecked {request : ChunkPutRequest} {response : ChunkPutResponse}
    {storage : LmdbStorage} (h : putChecked P storage request faults = some response) :
    Held storage.db request.address (.done response) := by
  unfold putChecked at h
  dsimp only at h
  split_ifs at h
  · cases h; trivial
  · cases h; trivial
  · split at h <;> cases h
    · rename_i hfound
      exact ⟨rfl, AList.lookup_isSome.1 (LmdbStorage.existsAt_eq_ok.1 hfound).2.2⟩
    · trivial

theorem held_paymentRefused {result : Except Error PaymentStatus} {response : ChunkPutResponse}
    (h : paymentRefused result = some response) : Held db address (.done response) := by
  unfold paymentRefused at h
  split at h
  · split_ifs at h
    cases h
    trivial
  · cases h
    trivial

theorem AllHeld.step (ha : Kept a) (h : s.AllHeld)
    (hstep : s.step P E localRewardsAddress a = some s') : s'.AllHeld := by
  have hdb := grows_step ha hstep
  cases a with
  | put request =>
    cases hstep
    exact forall_mem_append h trivial
  | check i faults =>
    obtain ⟨p, hi, hstep⟩ := of_bind hstep
    split_ifs at hstep
    cases hstep
    rw [check] at hdb ⊢
    rcases hchecked : putChecked P s.storage p.request faults with _ | response
    · exact h.set (.refl _) rfl trivial
    · exact h.set (.refl _) rfl (held_putChecked hchecked)
  | verify a =>
    obtain ⟨v, -, rfl⟩ := verify_step hstep
    exact h
  | verified i faults =>
    obtain ⟨p, hi, hstep⟩ := of_bind hstep
    split at hstep
    · obtain ⟨c, hk, hstep⟩ := Option.bind_eq_some_iff.1 hstep
      split at hstep
      · rename_i result _ _
        cases hstep
        rw [verified] at hdb ⊢
        rcases hrefused : paymentRefused result with _ | response
        · rw [hrefused] at hdb
          dsimp only at hdb ⊢
          rcases LmdbStorage.putBegin_cases P s.storage p.request.address p.request.content faults
            with ⟨e, hb⟩ | ⟨hmem, hb⟩ | ⟨-, hb⟩
          · rw [hb] at hdb ⊢
            exact h.set hdb rfl trivial
          · rw [hb] at hdb ⊢
            exact h.set hdb rfl hmem
          · rw [hb] at hdb ⊢
            exact h.set hdb rfl trivial
        · exact h.set (.refl _) rfl (held_paymentRefused hrefused)
      · cases hstep
    · cases hstep
  | write i faults =>
    obtain ⟨p, hi, hstep⟩ := of_bind hstep
    split_ifs at hstep
    cases hstep
    refine h.set hdb rfl ?_
    change Held (s.storage.putTask p.request.address p.request.content faults).2.db _
      (putStored (s.storage.putTask p.request.address p.request.content faults).1)
    rcases LmdbStorage.putTask_cases s.storage p.request.address p.request.content faults with
      ⟨e, hb⟩ | ⟨hmem, hb⟩ | ⟨-, -, hb⟩
    · rw [hb]; trivial
    · rw [hb]; exact hmem
    · rw [hb]; exact (AList.mem_insert _).2 (.inl rfl)
  | recordStored i | recordType i =>
    obtain ⟨p, hi, hstep⟩ := of_bind hstep
    split_ifs at hstep with hstate
    cases hstep
    have hheld := h p (List.mem_of_getElem? hi)
    rw [hstate] at hheld
    exact h.set (.refl _) rfl hheld
  | recordPayment i =>
    obtain ⟨p, hi, hstep⟩ := of_bind hstep
    split_ifs at hstep with hstate
    cases hstep
    have hheld := h p (List.mem_of_getElem? hi)
    rw [hstate] at hheld
    exact h.set (.refl _) rfl ⟨rfl, hheld⟩
  | get address faults =>
    cases hstep
    exact fun q hq => (h q hq).mono hdb
  | quote request => cases hstep; exact h
  | delete address faults => exact ha.elim

/-! ## The runs of a node -/

/-- The node has come here from its start. -/
def Started (P : Primitives) (E : Evm) (localRewardsAddress : RewardsAddress) (s : NodeState) :
    Prop :=
  ∃ storage metrics as, (∀ e ∈ storage.db.entries, computeAddress P e.2 = e.1) ∧
    Trace (NodeState.step P E localRewardsAddress) (fun _ a => Kept a) (.open storage metrics) as s

theorem Started.allHeld (h : Started P E localRewardsAddress s) : s.AllHeld := by
  obtain ⟨storage, metrics, as, -, h⟩ := h
  exact h.invariant (fun _ _ _ ha hs hstep => AllHeld.step ha hs hstep) (by simp [AllHeld, NodeState.open])

/-- What stands at an address has that address. -/
theorem Started.lookup (h : Started P E localRewardsAddress s)
    (hfound : s.storage.db.lookup address = some content) : computeAddress P content = address := by
  obtain ⟨storage, metrics, as, hstart, h⟩ := h
  have hinv : Inv P E localRewardsAddress storage s :=
    h.invariant (fun _ _ _ _ hs hstep => Inv.step hs hstep) (inv_open metrics)
  have hentry : ⟨address, content⟩ ∈ s.storage.db.entries := AList.mem_lookup_iff.1 hfound
  rcases hinv.db.entries _ hentry with hold | ⟨i, hi⟩
  · exact hstart _ hold
  · obtain ⟨p, -, haddress, hcontent, -, hvalid, -⟩ := hinv.puts.written i _ _ hi
    have hhash := hvalid.2
    rwa [haddress, hcontent] at hhash

/-- The chunk that a PUT was answered for is there. -/
theorem Started.mem_of_answered (h : Started P E localRewardsAddress s) (hp : p ∈ s.puts)
    (hdone : p.state = .done (.success address) ∨ p.state = .done (.alreadyExists address)) :
    p.request.address ∈ s.storage.db := by
  have hheld := h.allHeld p hp
  rcases hdone with hdone | hdone <;> rw [hdone] at hheld <;> exact hheld.2

/-- What the node answers to a GET when its database does not fail. -/
theorem Started.handleGet (h : Started P E localRewardsAddress s) :
    (∃ content, s.storage.db.lookup address = some content ∧
      computeAddress P content = address ∧
      handleGet P s.storage .none ⟨address⟩ = .success address content) ∨
    address ∉ s.storage.db ∧ handleGet P s.storage .none ⟨address⟩ = .notFound address := by
  have hread : s.storage.readTxn address .none = .ok (s.storage.db.lookup address) := rfl
  rcases hfound : s.storage.db.lookup address with _ | content
  · refine .inr ⟨fun hmem => ?_, ?_⟩
    · have hsome := AList.lookup_isSome.2 hmem
      rw [hfound] at hsome
      cases hsome
    · simp only [AntNode.handleGet, LmdbStorage.get, hread, hfound]
  · have hhash := h.lookup hfound
    refine .inl ⟨content, rfl, hhash, ?_⟩
    simp only [AntNode.handleGet, LmdbStorage.get, hread, hfound, hhash, ne_eq, not_true_eq_false,
      and_false, if_false]

end NodeState

end Autonomi.AntNode
