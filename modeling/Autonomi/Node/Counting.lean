/-
  What a node's quoting metrics count, in every run: each PUT that is answered
  with success, also where the chunk was there already.
-/
import Autonomi.Node.StoreSafety

namespace Autonomi.AntNode

open Lib

def DbChange.isPut : DbChange → Bool
  | .put .. => true
  | .delete _ => false

namespace NodeState

/-- How far a call is that has stored, or found stored, what it was given. -/
def phase : PutState → ℕ
  | .recordStored => 1
  | .recordType => 2
  | .recordPayment | .done (.success _) => 3
  | _ => 0

/-- How many calls are in such a phase. -/
def count (s : NodeState) (f : ℕ → Bool) : ℕ := s.puts.countP fun p => f (phase p.state)

/-- How many chunks were newly inserted. -/
def inserted (s : NodeState) : ℕ := s.changes.countP DbChange.isPut

/-- The counters of a node, and the calls that have stored: all, those still to be counted, those
    still to be counted by type. -/
structure Numbers where
  stored : ℕ
  uncounted : ℕ
  untyped : ℕ
  inserted : ℕ
  duplicates : ℕ
  records : ℕ
  types : List (UInt32 × UInt32)

def numbers (s : NodeState) : Numbers :=
  ⟨s.count fun n => 0 < n, s.count fun n => n = 1, s.count fun n => n = 1 ∨ n = 2, s.inserted,
    s.storage.stats.duplicates, s.metrics.closeRecordsStored, s.metrics.recordsPerType⟩

/-- What a step does to the numbers. -/
inductive Effect : Numbers → Numbers → Prop where
  | quiet (n : Numbers) : Effect n n
  | found (n : Numbers) : Effect n
      { n with
        stored := n.stored + 1, uncounted := n.uncounted + 1, untyped := n.untyped + 1
        duplicates := n.duplicates + 1 }
  | wrote (n : Numbers) : Effect n
      { n with
        stored := n.stored + 1, uncounted := n.uncounted + 1, untyped := n.untyped + 1
        inserted := n.inserted + 1 }
  | counted (n : Numbers) : Effect { n with uncounted := n.uncounted + 1 }
      { n with records := n.records + 1 }
  | typed (n : Numbers) : Effect { n with untyped := n.untyped + 1 }
      { n with types := countType dataTypeChunk n.types }

/-- The counters, against where they began. -/
structure Counted (start n : Numbers) : Prop where
  calls : n.stored + start.duplicates = n.inserted + n.duplicates
  records : n.records + n.uncounted = start.records + n.stored
  types : countOf dataTypeChunk n.types < 2 ^ 32 - 1 →
    countOf dataTypeChunk n.types + n.untyped = countOf dataTypeChunk start.types + n.stored ∧
    totalOf n.types + n.untyped = totalOf start.types + n.stored

theorem Counted.effect {start n n' : Numbers} (h : Counted start n) (he : Effect n n') :
    Counted start n' := by
  obtain ⟨hcalls, hrecords, htypes⟩ := h
  cases he with
  | quiet => exact ⟨hcalls, hrecords, htypes⟩
  | found =>
    refine ⟨by simp only; omega, by simp only; omega, fun hlt => ?_⟩
    have := htypes hlt
    simp only
    omega
  | wrote =>
    refine ⟨by simp only; omega, by simp only; omega, fun hlt => ?_⟩
    have := htypes hlt
    simp only
    omega
  | counted =>
    simp only at hcalls hrecords htypes
    exact ⟨hcalls, by simp only; omega, htypes⟩
  | typed n =>
    simp only at hcalls hrecords htypes
    refine ⟨hcalls, hrecords, fun hlt => ?_⟩
    simp only at hlt ⊢
    have hbefore : countOf dataTypeChunk n.types < 2 ^ 32 - 1 :=
      lt_of_le_of_lt countOf_le_countType hlt
    obtain ⟨hcount, htotal⟩ := countOf_countType hbefore
    have := htypes hbefore
    omega

/-! ## The steps -/

/-- A PUT whose payment is verified finds its chunk in the store, by the check before the
    transaction or in it. -/
def FindsStored (P : Primitives) (s : NodeState) : NodeAction → Prop
  | .verified i faults => ∃ p k c result evidence, s.puts[i]? = some p ∧ p.state = .verifying k ∧
    s.verifier.calls[k]? = some c ∧ c.state = .done result evidence ∧ paymentRefused result = none ∧
    computeAddress P p.request.content = p.request.address ∧
    faults .readTxn = none ∧ faults .get = none ∧ p.request.address ∈ s.storage.db
  | .write i faults => ∃ p, s.puts[i]? = some p ∧ p.state = .writing ∧
    faults .task = none ∧ faults .writeTxn = none ∧ faults .get = none ∧
    p.request.address ∈ s.storage.db
  | _ => False

variable {P : Primitives} {E : Evm} {localRewardsAddress : RewardsAddress} {s s' : NodeState}
  {p : PutCall} {i : ℕ} {state : PutState}

/-- A call that goes on moves a count by where it was and where it is. -/
theorem count_set {f : ℕ → Bool} (hi : s.puts[i]? = some p)
    (hputs : s'.puts = s.puts.set i { p with state := state }) :
    s'.count f + (if f (phase p.state) then 1 else 0) =
      s.count f + if f (phase state) then 1 else 0 := by
  rw [count, hputs]
  exact countP_set_add hi

theorem count_of_phase {f : ℕ → Bool} (hi : s.puts[i]? = some p)
    (hputs : s'.puts = s.puts.set i { p with state := state })
    (hphase : phase state = phase p.state) : s'.count f = s.count f := by
  have := count_set (f := f) hi hputs
  rw [hphase] at this
  omega

/-- What the calls contribute to the numbers where one comes to the counters. -/
theorem count_of_stored (hi : s.puts[i]? = some p)
    (hputs : s'.puts = s.puts.set i { p with state := .recordStored })
    (hphase : phase p.state = 0) :
    (s'.count fun n => 0 < n) = (s.count fun n => 0 < n) + 1 ∧
    (s'.count fun n => n = 1) = (s.count fun n => n = 1) + 1 ∧
    (s'.count fun n => n = 1 ∨ n = 2) = (s.count fun n => n = 1 ∨ n = 2) + 1 := by
  have h₁ := count_set (f := fun n => 0 < n) hi hputs
  have h₂ := count_set (f := fun n => n = 1) hi hputs
  have h₃ := count_set (f := fun n => n = 1 ∨ n = 2) hi hputs
  rw [hphase] at h₁ h₂ h₃
  exact ⟨h₁, h₂, h₃⟩

theorem numbers_of_phase (hi : s.puts[i]? = some p)
    (hputs : s'.puts = s.puts.set i { p with state := state }) (hphase : phase state = phase p.state)
    (hinserted : s'.inserted = s.inserted) (hstorage : s'.storage = s.storage)
    (hmetrics : s'.metrics = s.metrics) : s'.numbers = s.numbers := by
  simp only [numbers, count_of_phase hi hputs hphase, hinserted, hstorage, hmetrics]

/-- `numbers` moves as the step says, and a duplicate is one that `FindsStored`. -/
def Moves (P : Primitives) (s : NodeState) (a : NodeAction) (s' : NodeState) : Prop :=
  Effect s.numbers s'.numbers ∧
    ((FindsStored P s a ∧ s'.storage.stats.duplicates = s.storage.stats.duplicates + 1) ∨
      (¬ FindsStored P s a ∧ s'.storage.stats.duplicates = s.storage.stats.duplicates))

theorem Moves.quiet {a : NodeAction} (hfinds : ¬ FindsStored P s a) (h : s'.numbers = s.numbers) :
    Moves P s a s' :=
  ⟨h ▸ .quiet _, .inr ⟨hfinds, congrArg Numbers.duplicates h⟩⟩

theorem findsStored_verified {k : ℕ} {c : VerifyCall} {result : Except Error PaymentStatus}
    {evidence : Option Evidence} (faults : Faults) (hi : s.puts[i]? = some p)
    (hstate : p.state = .verifying k) (hk : s.verifier.calls[k]? = some c)
    (hdone : c.state = .done result evidence) :
    FindsStored P s (.verified i faults) ↔ paymentRefused result = none ∧
      (s.storage.putBegin P p.request.address p.request.content faults).1 = some (.ok false) := by
  rw [LmdbStorage.putBegin_found]
  constructor
  · rintro ⟨q, j, d, r, e, hq, hqs, hj, hd, hr, hfound⟩
    rw [hi] at hq
    cases hq
    rw [hstate] at hqs
    cases hqs
    rw [hk] at hj
    cases hj
    rw [hdone] at hd
    cases hd
    exact ⟨hr, hfound⟩
  · rintro ⟨hr, hfound⟩
    exact ⟨p, k, c, result, evidence, hi, hstate, hk, hdone, hr, hfound⟩

theorem findsStored_write (faults : Faults) (hi : s.puts[i]? = some p)
    (hstate : p.state = .writing) :
    FindsStored P s (.write i faults) ↔
      (s.storage.putTask p.request.address p.request.content faults).1 = .ok false := by
  rw [LmdbStorage.putTask_found]
  constructor
  · rintro ⟨q, hq, -, hfound⟩
    rw [hi] at hq
    cases hq
    exact hfound
  · exact fun hfound => ⟨p, hi, hstate, hfound⟩

theorem phase_of_putChecked {storage : LmdbStorage} {request : ChunkPutRequest} {faults : Faults}
    {response : ChunkPutResponse} (h : putChecked P storage request faults = some response) :
    phase (.done response) = 0 := by
  have := putChecked_ne_success h
  cases response with
  | success => exact absurd trivial this
  | alreadyExists | paymentRequired | error => rfl

theorem phase_of_paymentRefused {result : Except Error PaymentStatus} {response : ChunkPutResponse}
    (h : paymentRefused result = some response) : phase (.done response) = 0 := by
  have := paymentRefused_ne_success h
  cases response with
  | success => exact absurd trivial this
  | alreadyExists | paymentRequired | error => rfl

theorem moves_check {faults : Faults} (hi : s.puts[i]? = some p) (hstate : p.state = .start) :
    Moves P s (.check i faults) (s.check P i p faults) := by
  refine .quiet id ?_
  rw [check]
  rcases hc : putChecked P s.storage p.request faults with _ | response
  · exact numbers_of_phase hi rfl (by rw [hstate]; rfl) rfl rfl rfl
  · exact numbers_of_phase hi rfl (by rw [hstate, phase_of_putChecked hc]; rfl) rfl rfl rfl

/-- A call that has found its chunk. -/
theorem effect_found (hi : s.puts[i]? = some p) (hphase : phase p.state = 0)
    (hputs : s'.puts = s.puts.set i { p with state := .recordStored })
    (hdup : s'.storage.stats.duplicates = s.storage.stats.duplicates + 1)
    (hinserted : s'.inserted = s.inserted) (hmetrics : s'.metrics = s.metrics) :
    Effect s.numbers s'.numbers := by
  obtain ⟨h₁, h₂, h₃⟩ := count_of_stored hi hputs hphase
  have h : s'.numbers = { s.numbers with
      stored := s.numbers.stored + 1, uncounted := s.numbers.uncounted + 1
      untyped := s.numbers.untyped + 1, duplicates := s.numbers.duplicates + 1 } := by
    simp only [numbers, h₁, h₂, h₃, hdup, hinserted, hmetrics]
  rw [h]
  exact .found _

/-- A call that has written it. -/
theorem effect_wrote (hi : s.puts[i]? = some p) (hphase : phase p.state = 0)
    (hputs : s'.puts = s.puts.set i { p with state := .recordStored })
    (hdup : s'.storage.stats.duplicates = s.storage.stats.duplicates)
    (hinserted : s'.inserted = s.inserted + 1) (hmetrics : s'.metrics = s.metrics) :
    Effect s.numbers s'.numbers := by
  obtain ⟨h₁, h₂, h₃⟩ := count_of_stored hi hputs hphase
  have h : s'.numbers = { s.numbers with
      stored := s.numbers.stored + 1, uncounted := s.numbers.uncounted + 1
      untyped := s.numbers.untyped + 1, inserted := s.numbers.inserted + 1 } := by
    simp only [numbers, h₁, h₂, h₃, hdup, hinserted, hmetrics]
  rw [h]
  exact .wrote _

theorem moves_verified {k : ℕ} {c : VerifyCall} {result : Except Error PaymentStatus}
    {evidence : Option Evidence} {faults : Faults} (hi : s.puts[i]? = some p)
    (hstate : p.state = .verifying k) (hk : s.verifier.calls[k]? = some c)
    (hdone : c.state = .done result evidence) :
    Moves P s (.verified i faults) (s.verified P i p result faults) := by
  have hphase : phase p.state = 0 := by rw [hstate]; rfl
  have hfinds := findsStored_verified (P := P) faults hi hstate hk hdone
  rw [verified]
  rcases hr : paymentRefused result with _ | response
  · rcases LmdbStorage.putBegin_cases P s.storage p.request.address p.request.content faults with
      ⟨e, hb⟩ | ⟨-, hb⟩ | ⟨-, hb⟩
    · rw [hb] at hfinds ⊢
      exact .quiet (by simp [hfinds]) (numbers_of_phase hi rfl (by rw [hphase]; rfl) rfl rfl rfl)
    · rw [hb] at hfinds ⊢
      exact ⟨effect_found hi hphase rfl rfl rfl rfl, .inl ⟨hfinds.2 ⟨hr, rfl⟩, rfl⟩⟩
    · rw [hb] at hfinds ⊢
      exact .quiet (by simp [hfinds]) (numbers_of_phase hi rfl (by rw [hphase]; rfl) rfl rfl rfl)
  · refine .quiet (by simp [hfinds, hr]) ?_
    exact numbers_of_phase hi rfl (by rw [hphase, phase_of_paymentRefused hr]) rfl rfl rfl

theorem moves_write {faults : Faults} (hi : s.puts[i]? = some p) (hstate : p.state = .writing) :
    Moves P s (.write i faults) (s.write i p faults) := by
  have hphase : phase p.state = 0 := by rw [hstate]; rfl
  have hfinds := findsStored_write (P := P) faults hi hstate
  rw [write]
  rcases LmdbStorage.putTask_cases s.storage p.request.address p.request.content faults with
    ⟨e, hb⟩ | ⟨-, hb⟩ | ⟨-, -, hb⟩
  · rw [hb] at hfinds ⊢
    exact .quiet (by simp [hfinds])
      (numbers_of_phase hi rfl (by rw [hphase]; rfl) (by simp [inserted]) rfl rfl)
  · rw [hb] at hfinds ⊢
    exact ⟨effect_found hi hphase rfl rfl (by simp [inserted]) rfl, .inl ⟨hfinds.2 rfl, rfl⟩⟩
  · rw [hb] at hfinds ⊢
    refine ⟨?_, .inr ⟨by simp [hfinds], rfl⟩⟩
    exact effect_wrote hi hphase rfl rfl (by simp [inserted, DbChange.isPut]) rfl

theorem Effect.of_counted {n n' : Numbers} (h : n = { n with uncounted := n'.uncounted + 1 })
    (h' : n' = { n with uncounted := n'.uncounted, records := n.records + 1 }) : Effect n n' := by
  have := Effect.counted { n with uncounted := n'.uncounted }
  rwa [← h, ← h'] at this

theorem Effect.of_typed {n n' : Numbers} (h : n = { n with untyped := n'.untyped + 1 })
    (h' : n' = { n with untyped := n'.untyped, types := countType dataTypeChunk n.types }) :
    Effect n n' := by
  have := Effect.typed { n with untyped := n'.untyped }
  rwa [← h, ← h'] at this

/-- A call that is counted. -/
theorem effect_recordStored (hi : s.puts[i]? = some p) (hstate : p.state = .recordStored)
    (hputs : s'.puts = s.puts.set i { p with state := .recordType })
    (hinserted : s'.inserted = s.inserted) (hstorage : s'.storage = s.storage)
    (hmetrics : s'.metrics = s.metrics.recordStored) : Effect s.numbers s'.numbers := by
  have hall := count_set (f := fun n => 0 < n) hi hputs
  have hcounted := count_set (f := fun n => n = 1) hi hputs
  have htyped := count_set (f := fun n => n = 1 ∨ n = 2) hi hputs
  simp [hstate, phase] at hall hcounted htyped
  refine .of_counted ?_ ?_
  · simp [numbers, hcounted]
  · simp [numbers, hall, htyped, hinserted, hstorage, hmetrics, QuotingMetricsTracker.recordStored]

/-- A call that is counted by type. -/
theorem effect_recordType (hi : s.puts[i]? = some p) (hstate : p.state = .recordType)
    (hputs : s'.puts = s.puts.set i { p with state := .recordPayment })
    (hinserted : s'.inserted = s.inserted) (hstorage : s'.storage = s.storage)
    (hmetrics : s'.metrics = s.metrics.recordType dataTypeChunk) : Effect s.numbers s'.numbers := by
  have hall := count_set (f := fun n => 0 < n) hi hputs
  have hcounted := count_set (f := fun n => n = 1) hi hputs
  have htyped := count_set (f := fun n => n = 1 ∨ n = 2) hi hputs
  simp [hstate, phase] at hall hcounted htyped
  refine .of_typed ?_ ?_
  · simp [numbers, htyped]
  · simp [numbers, hall, hcounted, hinserted, hstorage, hmetrics, QuotingMetricsTracker.recordType]

theorem moves_recordPayment (hi : s.puts[i]? = some p) (hstate : p.state = .recordPayment) :
    Moves P s (.recordPayment i) { s.set i p (.done (.success p.request.address)) with
      metrics := s.metrics.recordPayment } := by
  refine .quiet id ?_
  set s' := s.set i p (.done (.success p.request.address))
  have hcount (f : ℕ → Bool) : s'.count f = s.count f :=
    count_of_phase hi rfl (by rw [hstate]; rfl)
  simp only [numbers, ← hcount]
  rfl

theorem moves_delete {address : XorName} {faults : Faults} :
    Moves P s (.delete address faults) (s.delete address faults) := by
  refine .quiet id ?_
  rw [delete]
  rcases LmdbStorage.delete_cases s.storage address faults with ⟨e, hd⟩ | ⟨deleted, hd⟩
  · rw [hd]
    simp [numbers, count, inserted, Except.toOption]
  · rw [hd]
    simp [numbers, count, inserted, Except.toOption, DbChange.isPut]

theorem moves_step {a : NodeAction} (hstep : s.step P E localRewardsAddress a = some s') :
    Moves P s a s' := by
  cases a with
  | put request =>
    cases hstep
    exact .quiet id (by simp [numbers, count, inserted, phase])
  | check i faults =>
    obtain ⟨p, hi, hstep⟩ := of_bind hstep
    split_ifs at hstep with hstate
    cases hstep
    exact moves_check hi hstate
  | verify a =>
    obtain ⟨v, -, rfl⟩ := verify_step hstep
    exact .quiet id rfl
  | verified i faults =>
    obtain ⟨p, hi, hstep⟩ := of_bind hstep
    split at hstep
    · rename_i k hstate
      obtain ⟨c, hk, hstep⟩ := Option.bind_eq_some_iff.1 hstep
      split at hstep
      · rename_i hdone
        cases hstep
        exact moves_verified hi hstate hk hdone
      · cases hstep
    · cases hstep
  | write i faults =>
    obtain ⟨p, hi, hstep⟩ := of_bind hstep
    split_ifs at hstep with hstate
    cases hstep
    exact moves_write hi hstate
  | recordStored i =>
    obtain ⟨p, hi, hstep⟩ := of_bind hstep
    split_ifs at hstep with hstate
    cases hstep
    exact ⟨effect_recordStored hi hstate rfl rfl rfl rfl, .inr ⟨id, rfl⟩⟩
  | recordType i =>
    obtain ⟨p, hi, hstep⟩ := of_bind hstep
    split_ifs at hstep with hstate
    cases hstep
    exact ⟨effect_recordType hi hstate rfl rfl rfl rfl, .inr ⟨id, rfl⟩⟩
  | recordPayment i =>
    obtain ⟨p, hi, hstep⟩ := of_bind hstep
    split_ifs at hstep with hstate
    cases hstep
    exact moves_recordPayment hi hstate
  | get address faults =>
    cases hstep
    obtain ⟨-, -, hdup⟩ := LmdbStorage.get_frame P s.storage address faults
    exact .quiet id (by simp [numbers, count, inserted, hdup])
  | quote request =>
    cases hstep
    exact .quiet id rfl
  | delete address faults =>
    cases hstep
    exact moves_delete

/-! ## Runs -/

/-- Every call has answered. -/
def Finished (s : NodeState) : Prop := ∀ p ∈ s.puts, ∃ response, p.state = .done response

theorem Finished.numbers (h : s.Finished) : s.numbers.uncounted = 0 ∧ s.numbers.untyped = 0 := by
  have hphase : ∀ p ∈ s.puts, phase p.state = 0 ∨ phase p.state = 3 := by
    intro p hp
    obtain ⟨response, hdone⟩ := h p hp
    rw [hdone]
    cases response with
    | success => exact .inr rfl
    | alreadyExists | paymentRequired | error => exact .inl rfl
  constructor
  · refine List.countP_eq_zero.2 fun p hp => ?_
    rcases hphase p hp with h | h <;> simp [h]
  · refine List.countP_eq_zero.2 fun p hp => ?_
    rcases hphase p hp with h | h <;> simp [h]

theorem counted_of_runs {start : NodeState} {as : List NodeAction}
    (h : Runs (NodeState.step P E localRewardsAddress) start as s)
    (hstart : Counted start.numbers start.numbers) : Counted start.numbers s.numbers :=
  h.invariant (fun _ _ _ _ hs hstep => Counted.effect hs (moves_step hstep).1) hstart

theorem counted_open (storage : LmdbStorage) (metrics : QuotingMetricsTracker) :
    Counted (NodeState.open storage metrics).numbers (NodeState.open storage metrics).numbers :=
  ⟨by simp [numbers, count, inserted, NodeState.open], by simp [numbers, count, NodeState.open],
    fun _ => by simp [numbers, count, NodeState.open]⟩

/-- Duplicates tell whether a run has only stored what was not there. -/
theorem trace_iff_duplicates {start : NodeState} {as : List NodeAction}
    (h : Runs (NodeState.step P E localRewardsAddress) start as s) :
    Trace (NodeState.step P E localRewardsAddress) (fun s a => ¬ FindsStored P s a) start as s ↔
      s.storage.stats.duplicates = start.storage.stats.duplicates := by
  refine trace_iff_eq (f := fun s => s.storage.stats.duplicates) (fun s a s' hstep hP => ?_)
    (fun s a s' hstep hP => ?_) h
  · rcases (moves_step hstep).2 with ⟨hfinds, -⟩ | ⟨-, heq⟩
    · exact absurd hfinds hP
    · exact heq
  · rcases (moves_step hstep).2 with ⟨-, heq⟩ | ⟨hfinds, -⟩
    · show s.storage.stats.duplicates < s'.storage.stats.duplicates
      omega
    · exact absurd hfinds hP

/-- **The counters count what is newly stored**, below saturation and when every call has answered,
    exactly if no PUT that was paid for has found its chunk in the store: `handle_put` counts
    `Ok(false)` as well. -/
theorem counts_iff {storage : LmdbStorage} {metrics : QuotingMetricsTracker} {as : List NodeAction}
    (h : Runs (NodeState.step P E localRewardsAddress) (.open storage metrics) as s)
    (hfinished : s.Finished)
    (hbelow : countOf dataTypeChunk s.metrics.recordsPerType < 2 ^ 32 - 1) :
    (s.metrics.closeRecordsStored = metrics.closeRecordsStored + s.inserted ∧
      countOf dataTypeChunk s.metrics.recordsPerType =
        countOf dataTypeChunk metrics.recordsPerType + s.inserted ∧
      totalOf s.metrics.recordsPerType = totalOf metrics.recordsPerType + s.inserted) ↔
    Trace (NodeState.step P E localRewardsAddress) (fun s a => ¬ FindsStored P s a)
      (.open storage metrics) as s := by
  obtain ⟨hcalls, hrecords, htypes⟩ := counted_of_runs h (counted_open storage metrics)
  obtain ⟨hcount, htotal⟩ := htypes hbelow
  obtain ⟨huncounted, huntyped⟩ := hfinished.numbers
  rw [trace_iff_duplicates h]
  rw [huncounted] at hrecords
  rw [huntyped] at hcount htotal
  simp only [numbers, NodeState.open] at hcalls hrecords hcount htotal ⊢
  constructor
  · rintro ⟨h, -, -⟩
    omega
  · intro h
    exact ⟨by omega, by omega, by omega⟩

end NodeState

/-! ## A chunk is put twice at once -/

section Example

/-- One PUT after the other. -/
theorem counts_iff_one : ∃ s,
    Runs (NodeState.step clear (exampleEvm examplePayment) (exampleAddress 0))
      (.open exampleStorage exampleTracker) examplePutActions s ∧
    s.inserted = 1 ∧ s.metrics.closeRecordsStored = 1 ∧
    Trace (NodeState.step clear (exampleEvm examplePayment) (exampleAddress 0))
      (fun s a => ¬ NodeState.FindsStored clear s a)
      (.open exampleStorage exampleTracker) examplePutActions s := by
  obtain ⟨s, hs, hputs, hinserted, hmetrics⟩ : ∃ s ∈ examplePutActions.foldlM
      (NodeState.step clear (exampleEvm examplePayment) (exampleAddress 0))
      (.open exampleStorage exampleTracker),
      s.puts = [⟨exampleRequestPut, .done (.success exampleContent)⟩,
        ⟨exampleRequestPut, .done (.alreadyExists exampleContent)⟩] ∧
      s.inserted = 1 ∧ s.metrics = ⟨1, 1000, 1, [(dataTypeChunk, 1)], 500⟩ := by decide +kernel
  have hfinished : s.Finished := by
    rw [NodeState.Finished, hputs]
    simp
  refine ⟨s, runs_iff.2 hs, hinserted, by rw [hmetrics], ?_⟩
  refine (NodeState.counts_iff (runs_iff.2 hs) hfinished (by rw [hmetrics]; decide)).1 ?_
  rw [hmetrics, hinserted]
  decide

/-- Both PUTs check for the chunk before either has written it; the second is paid for through the
    cache. -/
def exampleRaceActions : List NodeAction :=
  [.put exampleRequestPut, .put exampleRequestPut, .check 0 .none, .check 1 .none] ++
    exampleVerify 0 ++ [.verify (.check 1 (seconds 100)), .verified 0 .none, .verified 1 .none,
      .write 0 .none, .write 1 .none] ++ exampleRecord 0 ++ exampleRecord 1

/-- One chunk is counted twice. -/
theorem not_counts_iff : ∃ s,
    Runs (NodeState.step clear (exampleEvm examplePayment) (exampleAddress 0))
      (.open exampleStorage exampleTracker) exampleRaceActions s ∧
    s.Finished ∧ s.inserted = 1 ∧ s.metrics.closeRecordsStored = 2 ∧
    countOf dataTypeChunk s.metrics.recordsPerType = 2 := by
  obtain ⟨s, hs, hputs, hinserted, hmetrics⟩ : ∃ s ∈ exampleRaceActions.foldlM
      (NodeState.step clear (exampleEvm examplePayment) (exampleAddress 0))
      (.open exampleStorage exampleTracker),
      s.puts = [⟨exampleRequestPut, .done (.success exampleContent)⟩,
        ⟨exampleRequestPut, .done (.success exampleContent)⟩] ∧
      s.inserted = 1 ∧ s.metrics = ⟨2, 1000, 2, [(dataTypeChunk, 2)], 500⟩ := by decide +kernel
  refine ⟨s, runs_iff.2 hs, ?_, hinserted, by rw [hmetrics], by rw [hmetrics]; rfl⟩
  rw [NodeState.Finished, hputs]
  simp

end Example

end Autonomi.AntNode
