/-
  What a crash costs the quoting metrics, in every run of calls on a tracker.
-/
import Autonomi.Node.Metrics

namespace Autonomi.AntNode

open Lib

/-! ## The counts -/

namespace Counter

variable {c : Counter} {m : QuotingMetricsTracker} {dataType : UInt32}

theorem read_recordPayment (c : Counter) (m : QuotingMetricsTracker) :
    c.read m.recordPayment = c.read m + if c.counts .payment then 1 else 0 := by
  cases c <;> rfl

/-- The types are counted apart. -/
def isOfType : Counter → Bool
  | ofType _ => true
  | _ => false

theorem read_recordStored (c : Counter) (m : QuotingMetricsTracker) (dataType : UInt32) :
    c.read m.recordStored =
      c.read m + if c.counts (.store dataType) && !c.isOfType then 1 else 0 := by
  cases c with
  | payments => rfl
  | stores => rfl
  | ofType t => simp [read, isOfType, QuotingMetricsTracker.recordStored]

theorem countOf_countType_of_ne {t : UInt32} (h : dataType ≠ t)
    (records : List (UInt32 × UInt32)) :
    countOf t (countType dataType records) = countOf t records := by
  induction records with
  | nil => simp [countOf, countType, h]
  | cons entry records ih =>
    by_cases hentry : entry.1 = dataType
    · have hother : ¬ entry.1 = t := fun heq => h (hentry.symm.trans heq)
      simp [countOf, countType, hentry, h]
    · rw [countType, if_neg hentry]
      by_cases hother : entry.1 = t
      · simp [countOf, hother]
      · simpa [countOf, hother] using ih

theorem read_recordType (c : Counter)
    (h : countOf dataType m.recordsPerType < 4294967295) :
    c.read (m.recordType dataType) =
      c.read m + if c.counts (.store dataType) && c.isOfType then 1 else 0 := by
  cases c with
  | payments => rfl
  | stores => rfl
  | ofType t =>
    by_cases ht : dataType = t
    · subst ht
      simpa [read, counts, isOfType, QuotingMetricsTracker.recordType] using
        (countOf_countType (h.trans_eq (by norm_num))).1
    · simpa [read, counts, isOfType, ht, QuotingMetricsTracker.recordType] using
        countOf_countType_of_ne ht m.recordsPerType

/-- The count has the call. -/
def hasCounted (c : Counter) (x : MetricsCall) : Bool :=
  c.counts x.op && (x.phase ≠ .counted || !c.isOfType)

/-- Of the first `n` calls that have drawn. -/
def drawn (c : Counter) (n : ℕ) (calls : List MetricsCall) : ℕ :=
  calls.countP fun x => c.counts x.op && x.phase.ops.any (· < n)

end Counter

namespace Metrics

variable {R : Rmp} {before : QuotingMetricsTracker} {s s' : Metrics} {n i : ℕ} {x x' y : MetricsCall}

/-! ## The condition -/

/-- What a call waits for before its next step. -/
def CarefulCall (R : Rmp) (s : Metrics) (x : MetricsCall) : Prop :=
  match x.phase with
  | .counted =>
    match x.op with
    | .payment => True
    | .store dataType => countOf dataType s.tracker.recordsPerType < 4294967295
  | .persisting _ => ∀ y ∈ s.calls, ¬ y.phase.inProgress
  | .loadedStores _ payments stores =>
    (R.toVec ⟨payments, stores, s.tracker.recordsPerType⟩).isSome
  | .returning ops => ∀ y ∈ s.calls, y.phase.isPending → ∀ q ∈ y.phase.ops, ops ≤ q
  | _ => True

instance (s : Metrics) (x : MetricsCall) : Decidable (CarefulCall R s x) := by
  unfold CarefulCall
  split
  · split <;> infer_instance
  all_goals infer_instance

/-- A snapshot is taken and written before the next one is begun, and before a call returns that has
    drawn later; nothing fails; and the process does not crash between the opening of the file and
    the last byte. -/
def Careful (R : Rmp) (s : Metrics) : MetricsAction → Prop
  | .advance i => ∀ x ∈ s.calls[i]?, CarefulCall R s x
  | .fail _ => False
  | .restart readable => readable = true ∧ ∀ x ∈ s.calls, ¬ x.phase.isTorn
  | .begin _ | .create _ | .write _ _ => True

instance (s : Metrics) : ∀ a : MetricsAction, Decidable (Careful R s a)
  | .advance i => inferInstanceAs (Decidable (∀ x ∈ s.calls[i]?, CarefulCall R s x))
  | .fail _ => .isFalse id
  | .restart readable =>
    inferInstanceAs (Decidable (readable = true ∧ ∀ x ∈ s.calls, ¬ x.phase.isTorn))
  | .begin _ | .create _ | .write _ _ => .isTrue trivial

/-! ## The invariant -/

/-- No two calls draw the same number or persist at once, and none has returned before what an
    earlier one has to write. -/
structure Compatible (x y : MetricsCall) : Prop where
  distinct : ∀ o, x.phase.ops = some o → y.phase.ops ≠ some o
  alone : ¬ (x.phase.inProgress ∧ y.phase.inProgress)
  ahead : ∀ o q, x.phase = .returned o → y.phase.isPending → y.phase.ops = some q → o < q
  behind : ∀ o q, y.phase = .returned o → x.phase.isPending → x.phase.ops = some q → o < q

/-- Of the first `n` draws, those that ask for a write have been persisted. -/
def Flushed (s : Metrics) (n : ℕ) : Prop :=
  n ≤ s.opsSincePersist ∧ ∀ x ∈ s.calls, ∀ q, x.phase.ops = some q → q % persistInterval = 0 →
    n ≤ q → x.phase.isPending

/-- The count `v` has the first `n` draws, and no more than the tracker. -/
def Covered (before : QuotingMetricsTracker) (s : Metrics) (n : ℕ) (c : Counter) (v : ℕ) : Prop :=
  c.read before + c.drawn n s.calls ≤ v ∧ v ≤ c.read s.tracker

/-- A tracker that is opened on `bytes` has the first `n` draws. -/
def Restores (R : Rmp) (before : QuotingMetricsTracker) (s : Metrics) (n : ℕ)
    (file : Option Bytes) : Prop :=
  ∀ (c : Counter) (maxRecords : ℕ),
    Covered before s n c (c.read (.withPersistence R maxRecords true file))

def PhaseOk (R : Rmp) (before : QuotingMetricsTracker) (s : Metrics) (x : MetricsCall) : Prop :=
  match x.phase with
  | .loadedPayments ops payments =>
    ∃ n, ops < n ∧ s.Flushed n ∧ Covered before s n .payments payments
  | .loadedStores ops payments stores =>
    ∃ n, ops < n ∧ s.Flushed n ∧ Covered before s n .payments payments ∧
      Covered before s n .stores stores
  | .loaded ops bytes => ∃ n, ops < n ∧ s.Flushed n ∧ Restores R before s n (some bytes)
  | .writing ops bytes written =>
    (∃ n, ops < n ∧ s.Flushed n ∧ Restores R before s n (some bytes)) ∧
      written ≤ bytes.length ∧ s.file = some (bytes.take written)
  | _ => True

structure Inv (R : Rmp) (before : QuotingMetricsTracker) (s : Metrics) : Prop where
  read : ∀ c : Counter,
    c.read s.tracker = c.read before + s.calls.countP c.hasCounted
  below : ∀ x ∈ s.calls, ∀ o, x.phase.ops = some o → o < s.opsSincePersist
  drawn : ∀ o < s.opsSincePersist, ∃ x ∈ s.calls, x.phase.ops = some o
  compatible : Apart Compatible s.calls
  phases : ∀ x ∈ s.calls, PhaseOk R before s x
  file : (∀ x ∈ s.calls, ¬ x.phase.isWriting) → ∃ n, s.Flushed n ∧ Restores R before s n s.file

theorem Compatible.symm (h : Compatible x y) : Compatible y x :=
  ⟨fun o hy hx => h.distinct o hx hy, fun hxy => h.alone hxy.symm, h.behind, h.ahead⟩

/-! ## What a crash costs -/

/-- The call has returned and is not among the first `n` draws. -/
def late (n : ℕ) (x : MetricsCall) : Bool := x.phase.isReturned && !x.phase.ops.any (· < n)

theorem ops_of_isReturned {phase : MetricsPhase} (h : phase.isReturned = true) :
    ∃ o, phase = .returned o := by
  cases phase with
  | returned o => exact ⟨o, rfl⟩
  | _ => cases h

theorem countP_late (h : Inv R before s) (hn : s.Flushed n) :
    s.calls.countP (late n) < persistInterval := by
  refine Nat.lt_of_le_of_lt (countP_le_card (f := fun x => x.phase.ops)
    (S := Finset.Ico n (n + 9)) ?_ fun x hx hlate => ?_) (by simp [persistInterval])
  · exact fun i j x y hij hi hj o hx => (h.compatible i j x y hij hi hj).distinct o hx
  · obtain ⟨hreturned, hlate⟩ := Bool.and_eq_true_iff.1 hlate
    obtain ⟨o, ho⟩ := ops_of_isReturned hreturned
    have hops : x.phase.ops = some o := by rw [ho]; rfl
    have hge : n ≤ o := by simpa [hops] using hlate
    refine ⟨o, Finset.mem_Ico.2 ⟨hge, ?_⟩, hops⟩
    by_contra hnot
    -- `q` is the next draw that asks for a write
    set q := (n + 9) / 10 * 10 with hq
    have hlt : q < s.opsSincePersist := by
      have := h.below x hx o hops
      omega
    obtain ⟨y, hy, hyops⟩ := h.drawn q hlt
    have hpending := hn.2 y hy q hyops (by rw [hq]; exact Nat.mul_mod_left _ _) (by omega)
    rcases h.compatible.eq_or hx hy with rfl | hxy
    · rw [ho] at hpending
      cases hpending
    · have := hxy.ahead o q ho hpending hyops
      omega

/-- What the count misses has returned, and is not among the first `n` draws. -/
theorem missing_le {after : QuotingMetricsTracker} {c : Counter}
    (h : Covered before s n c (c.read after)) :
    missing before after s.calls c ≤ s.calls.countP fun x => c.counts x.op && late n x := by
  have hreturned : c.returned s.calls ≤
      c.drawn n s.calls + s.calls.countP fun x => c.counts x.op && late n x := by
    refine countP_le_add fun x _ hx => ?_
    obtain ⟨hcounts, hreturned⟩ := Bool.and_eq_true_iff.1 hx
    by_cases hdrawn : x.phase.ops.any (· < n) = true
    · exact Or.inl (by simp [hcounts, hdrawn])
    · exact Or.inr (by simp [late, hcounts, hreturned, hdrawn])
  have := h.1
  rw [missing]
  omega

/-- An operation is a payment or a record of one type. -/
theorem countP_types_le (q : MetricsCall → Bool) (types : Finset UInt32) (calls : List MetricsCall) :
    (calls.countP fun x => Counter.payments.counts x.op && q x) +
        ∑ t ∈ types, calls.countP (fun x => (Counter.ofType t).counts x.op && q x) ≤
      calls.countP q := by
  induction calls with
  | nil => simp
  | cons x calls ih =>
    simp only [List.countP_cons, Finset.sum_add_distrib]
    have hhead : (if Counter.payments.counts x.op && q x then 1 else 0) +
        ∑ t ∈ types, (if (Counter.ofType t).counts x.op && q x then 1 else 0) ≤
          if q x then 1 else 0 := by
      by_cases hq : q x = true
      · cases hop : x.op with
        | payment => simp [hq, Counter.counts]
        | store dataType =>
          simp only [hq, Counter.counts, Bool.and_true, Bool.false_eq_true, if_false, Nat.zero_add,
            decide_eq_true_eq, Finset.sum_ite_eq, if_true]
          split_ifs <;> simp
      · simp [hq]
    omega

theorem countP_stores_le (q : MetricsCall → Bool) (calls : List MetricsCall) :
    (calls.countP fun x => Counter.payments.counts x.op && q x) +
        calls.countP (fun x => Counter.stores.counts x.op && q x) ≤ calls.countP q := by
  induction calls with
  | nil => simp
  | cons x calls ih =>
    simp only [List.countP_cons]
    have hhead : (if Counter.payments.counts x.op && q x then 1 else 0) +
        (if Counter.stores.counts x.op && q x then 1 else 0) ≤ if q x then 1 else 0 := by
      cases x.op <;> simp [Counter.counts]
    omega

theorem boundedLoss_of_restores {maxRecords : ℕ} (h : Inv R before s) (hn : s.Flushed n)
    (hfile : Restores R before s n s.file) :
    BoundedLoss before (.withPersistence R maxRecords true s.file) s.calls where
  atMost c := by
    refine (hfile c maxRecords).2.trans ?_
    rw [h.read c]
    refine Nat.add_le_add_left (List.countP_mono_left fun x _ hx => ?_) _
    exact (Bool.and_eq_true_iff.1 hx).1
  missed := by
    have hpayments := missing_le (hfile .payments maxRecords)
    have hstores := missing_le (hfile .stores maxRecords)
    have hsum := countP_stores_le (late n) s.calls
    have := countP_late h hn
    omega
  missedTypes types := by
    have hpayments := missing_le (hfile .payments maxRecords)
    have htypes : ∑ t ∈ types,
        missing before (.withPersistence R maxRecords true s.file) s.calls (.ofType t) ≤
          ∑ t ∈ types, s.calls.countP fun x => (Counter.ofType t).counts x.op && late n x :=
      Finset.sum_le_sum fun t _ => missing_le (hfile (.ofType t) maxRecords)
    have hsum := countP_types_le (late n) types s.calls
    have := countP_late h hn
    omega

/-! ## The steps -/

/-- What a step leaves of the snapshots that have been taken. -/
structure Grows (s s' : Metrics) : Prop where
  read : ∀ c : Counter, c.read s.tracker ≤ c.read s'.tracker
  drawn : ∀ n ≤ s.opsSincePersist, ∀ c : Counter, c.drawn n s'.calls = c.drawn n s.calls

theorem Covered.grows {c : Counter} {v : ℕ} (h : Covered before s n c v) (hg : Grows s s')
    (hn : s.Flushed n) : Covered before s' n c v := by
  refine ⟨?_, h.2.trans (hg.read c)⟩
  rw [hg.drawn n hn.1]
  exact h.1

theorem Restores.grows {file : Option Bytes} (h : Restores R before s n file) (hg : Grows s s')
    (hn : s.Flushed n) : Restores R before s' n file := fun c maxRecords =>
  (h c maxRecords).grows hg hn

theorem PhaseOk.grows (h : PhaseOk R before s x) (hg : Grows s s')
    (hflushed : ∀ n, s.Flushed n → s'.Flushed n)
    (hfile : x.phase.isWriting → s'.file = s.file) : PhaseOk R before s' x := by
  unfold PhaseOk at h ⊢
  match hphase : x.phase with
  | .loadedPayments ops payments =>
    rw [hphase] at h
    obtain ⟨n, hops, hn, hp⟩ := h
    exact ⟨n, hops, hflushed n hn, hp.grows hg hn⟩
  | .loadedStores ops payments stores =>
    rw [hphase] at h
    obtain ⟨n, hops, hn, hp, hs⟩ := h
    exact ⟨n, hops, hflushed n hn, hp.grows hg hn, hs.grows hg hn⟩
  | .loaded ops bytes =>
    rw [hphase] at h
    obtain ⟨n, hops, hn, hr⟩ := h
    exact ⟨n, hops, hflushed n hn, hr.grows hg hn⟩
  | .writing ops bytes written =>
    rw [hphase] at h
    obtain ⟨⟨n, hops, hn, hr⟩, hwritten, hcontent⟩ := h
    refine ⟨⟨n, hops, hflushed n hn, hr.grows hg hn⟩, hwritten, ?_⟩
    rw [hfile (by rw [hphase]; rfl)]
    exact hcontent
  | .counted | .recorded | .persisting _ | .returning _ | .returned _ => trivial

theorem grows_set (hi : s.calls[i]? = some x) (hcalls : s'.calls = s.calls.set i x')
    (hop : x'.op = x.op) (hread : ∀ c : Counter, c.read s.tracker ≤ c.read s'.tracker)
    (hdraw : ∀ n ≤ s.opsSincePersist, x'.phase.ops.any (· < n) = x.phase.ops.any (· < n)) :
    Grows s s' where
  read := hread
  drawn n hn c := by
    rw [Counter.drawn, hcalls]
    exact countP_set_eq hi (by rw [hop, hdraw n hn])

theorem Flushed.set (hn : s.Flushed n) (hcalls : s'.calls = s.calls.set i x')
    (hops : s.opsSincePersist ≤ s'.opsSincePersist)
    (hx : ∀ q, x'.phase.ops = some q → q % persistInterval = 0 → n ≤ q → x'.phase.isPending) :
    s'.Flushed n := by
  refine ⟨hn.1.trans hops, ?_⟩
  rw [hcalls]
  exact forall_mem_set hn.2 hx

theorem Inv.set (h : Inv R before s) (hi : s.calls[i]? = some x)
    (hcalls : s'.calls = s.calls.set i x')
    (hread : ∀ c : Counter, c.read s'.tracker + (if c.hasCounted x then 1 else 0) =
      c.read s.tracker + if c.hasCounted x' then 1 else 0)
    (hops : s.opsSincePersist ≤ s'.opsSincePersist)
    (hkeep : ∀ o, x.phase.ops = some o → x'.phase.ops = some o)
    (hbelow : ∀ o, x'.phase.ops = some o → o < s'.opsSincePersist)
    (hdrawn : ∀ o < s'.opsSincePersist, o < s.opsSincePersist ∨ x'.phase.ops = some o)
    (hcompat : ∀ (j : ℕ) (y : MetricsCall), j ≠ i → s.calls[j]? = some y → Compatible x' y)
    (hothers : ∀ (j : ℕ) (y : MetricsCall), j ≠ i → s.calls[j]? = some y → PhaseOk R before s' y)
    (hphase : PhaseOk R before s' x')
    (hfile : (∀ y ∈ s'.calls, ¬ y.phase.isWriting) →
      ∃ n, s'.Flushed n ∧ Restores R before s' n s'.file) : Inv R before s' where
  read c := by
    have hcount : (s.calls.set i x').countP c.hasCounted + (if c.hasCounted x then 1 else 0) =
        s.calls.countP c.hasCounted + if c.hasCounted x' then 1 else 0 := countP_set_add hi
    have := hread c
    rw [h.read c] at this
    rw [hcalls]
    omega
  below := by
    rw [hcalls]
    exact forall_mem_set (fun y hy o ho => (h.below y hy o ho).trans_le hops) hbelow
  drawn o ho := by
    rw [hcalls]
    rcases hdrawn o ho with hold | hnew
    · exact exists_mem_set (h.drawn o hold) hi (hkeep o)
    · exact ⟨x', mem_set_self hi, hnew⟩
  compatible := by
    rw [hcalls]
    exact h.compatible.set (fun _ _ => Compatible.symm) hcompat
  phases := by
    intro y hy
    rw [hcalls] at hy
    obtain ⟨j, hj⟩ := List.getElem?_of_mem hy
    by_cases hji : j = i
    · subst hji
      rw [List.getElem?_set_self (List.getElem?_eq_some_iff.1 hi).1] at hj
      rwa [← Option.some.inj hj]
    · rw [List.getElem?_set_ne (Ne.symm hji)] at hj
      exact hothers j y hji hj
  file := hfile

/-- A call takes up no more than it had. -/
theorem Compatible.of_le (h : Compatible x y) (hops : x'.phase.ops = x.phase.ops)
    (hprogress : x'.phase.inProgress → x.phase.inProgress)
    (hpending : x'.phase.isPending → x.phase.isPending)
    (hreturned : ∀ o, x'.phase = .returned o → x.phase = .returned o) : Compatible x' y where
  distinct o ho := h.distinct o (hops ▸ ho)
  alone hxy := h.alone ⟨hprogress hxy.1, hxy.2⟩
  ahead o q ho := h.ahead o q (hreturned o ho)
  behind o q ho hp hq := h.behind o q ho (hpending hp) (hops ▸ hq)

/-- A step of a call that has drawn, with what it does to the file. -/
theorem Inv.move {phase : MetricsPhase} {file : Option Bytes} (h : Inv R before s)
    (hi : s.calls[i]? = some x) (hdrawn : x.phase.ops.isSome) (hops : phase.ops = x.phase.ops)
    (hcompat : ∀ (j : ℕ) (y : MetricsCall), j ≠ i → s.calls[j]? = some y →
      Compatible { x with phase := phase } y)
    (hothers : ∀ (j : ℕ) (y : MetricsCall), j ≠ i → s.calls[j]? = some y →
      PhaseOk R before { s.setPhase i x phase with file := file } y)
    (hphase : PhaseOk R before { s.setPhase i x phase with file := file } { x with phase := phase })
    (hfile : (∀ y ∈ s.calls.set i { x with phase := phase }, ¬ y.phase.isWriting) →
      ∃ n, Flushed { s.setPhase i x phase with file := file } n ∧
        Restores R before { s.setPhase i x phase with file := file } n file) :
    Inv R before { s.setPhase i x phase with file := file } := by
  have hne : ∀ phase : MetricsPhase, phase.ops.isSome → phase ≠ .counted := by
    rintro phase hsome rfl
    cases hsome
  have hcalls : (s.setPhase i x phase).calls = s.calls.set i { x with phase := phase } := rfl
  refine h.set hi hcalls (fun c => ?_) le_rfl (fun o ho => ?_)
    (fun o ho => ?_) (fun o ho => Or.inl ho) hcompat hothers hphase hfile
  · simp [setPhase, Counter.hasCounted, hne _ hdrawn, hne phase (hops ▸ hdrawn)]
  · rw [← ho]
    exact hops
  · exact h.below x (List.mem_of_getElem? hi) o (hops ▸ ho)

theorem phaseOk_of_not_inProgress (h : ¬ x.phase.inProgress) : PhaseOk R before s x := by
  unfold PhaseOk
  match hphase : x.phase with
  | .loadedPayments .. | .loadedStores .. | .loaded .. | .writing .. =>
    rw [hphase] at h
    exact absurd rfl h
  | .counted | .recorded | .persisting _ | .returning _ | .returned _ => trivial

theorem ops_isSome_of_isPending {phase : MetricsPhase} (h : phase.isPending) : phase.ops.isSome := by
  cases phase <;> first | rfl | cases h

theorem isPending_of_inProgress {phase : MetricsPhase} (h : phase.inProgress) : phase.isPending := by
  cases phase <;> first | exact h | cases h

theorem not_writing_of_set (hi : s.calls[i]? = some x) (hx : ¬ x.phase.isWriting)
    (hall : ∀ y ∈ s.calls.set i x', ¬ y.phase.isWriting) : ∀ y ∈ s.calls, ¬ y.phase.isWriting := by
  intro y hy
  obtain ⟨j, hj⟩ := List.getElem?_of_mem hy
  by_cases hji : j = i
  · subst hji
    rwa [Option.some.inj (hj.symm.trans hi)]
  · refine hall y (List.mem_of_getElem? (i := j) ?_)
    rwa [List.getElem?_set_ne (Ne.symm hji)]

theorem Inv.file_grows (h : Inv R before s) (hgrows : Grows s s')
    (hflushed : ∀ n, s.Flushed n → s'.Flushed n) (hfile : s'.file = s.file)
    (hall : ∀ y ∈ s.calls, ¬ y.phase.isWriting) :
    ∃ n, s'.Flushed n ∧ Restores R before s' n s'.file := by
  obtain ⟨n, hn, hr⟩ := h.file hall
  rw [hfile]
  exact ⟨n, hflushed n hn, hr.grows hgrows hn⟩

/-- A write that has come to its last byte has left what it has to. -/
theorem Inv.restores (h : Inv R before s) (huntorn : ∀ x ∈ s.calls, ¬ x.phase.isTorn) :
    ∃ n, s.Flushed n ∧ Restores R before s n s.file := by
  by_cases hwriting : ∀ x ∈ s.calls, ¬ x.phase.isWriting
  · exact h.file hwriting
  · push Not at hwriting
    obtain ⟨x, hx, hwriting⟩ := hwriting
    have hok := h.phases x hx
    have hwhole := huntorn x hx
    rw [PhaseOk] at hok
    cases hphase : x.phase with
    | writing ops bytes written =>
      rw [hphase] at hok hwhole
      obtain ⟨⟨n, -, hn, hr⟩, -, hfile⟩ := hok
      have hlast : bytes.length ≤ written := by simpa [MetricsPhase.isTorn] using hwhole
      rw [List.take_of_length_le hlast] at hfile
      exact ⟨n, hn, hfile ▸ hr⟩
    | _ =>
      rw [hphase] at hwriting
      cases hwriting

/-- A step of a call that has drawn, without the file, and which does not end a write. -/
theorem Inv.keep {phase : MetricsPhase} (h : Inv R before s) (hi : s.calls[i]? = some x)
    (hdrawn : x.phase.ops.isSome) (hops : phase.ops = x.phase.ops)
    (hpending : x.phase.isPending → phase.isPending) (hwriting : ¬ x.phase.isWriting)
    (hcompat : ∀ (j : ℕ) (y : MetricsCall), j ≠ i → s.calls[j]? = some y →
      Compatible { x with phase := phase } y)
    (hphase : Grows s (s.setPhase i x phase) → (∀ n, s.Flushed n → (s.setPhase i x phase).Flushed n) →
      PhaseOk R before (s.setPhase i x phase) { x with phase := phase }) :
    Inv R before (s.setPhase i x phase) := by
  have hgrows : Grows s (s.setPhase i x phase) :=
    grows_set hi rfl rfl (fun _ => le_rfl) fun n _ => by rw [← hops]
  have hflushed : ∀ n, s.Flushed n → (s.setPhase i x phase).Flushed n := fun n hn =>
    hn.set rfl le_rfl fun q hq hmod hle =>
      hpending (hn.2 x (List.mem_of_getElem? hi) q (hops ▸ hq) hmod hle)
  change Inv R before { s.setPhase i x phase with file := s.file }
  refine h.move hi hdrawn hops hcompat (fun j y _ hj => ?_)
    (hphase hgrows hflushed) fun hall => ?_
  · exact (h.phases y (List.mem_of_getElem? hj)).grows hgrows hflushed fun _ => rfl
  · exact h.file_grows hgrows hflushed rfl (not_writing_of_set hi hwriting hall)

/-- The tracker has all that is drawn. -/
theorem Inv.covered (h : Inv R before s) (n : ℕ) (c : Counter) :
    Covered before s n c (c.read s.tracker) := by
  refine ⟨?_, le_rfl⟩
  rw [h.read c]
  refine Nat.add_le_add_left (List.countP_mono_left fun x _ hx => ?_) _
  obtain ⟨hcounts, hdrawn⟩ := Bool.and_eq_true_iff.1 hx
  have hne : x.phase ≠ .counted := by
    intro heq
    rw [heq] at hdrawn
    cases hdrawn
  simp [Counter.hasCounted, hcounts, hne]

/-- All draws so far ask for no more than what is pending. -/
theorem Inv.flushed (h : Inv R before s) : s.Flushed s.opsSincePersist :=
  ⟨le_rfl, fun x hx q hq _ hle => absurd (h.below x hx q hq) (not_lt.2 hle)⟩

theorem Inv.compatible_of (h : Inv R before s) (hi : s.calls[i]? = some x) {j : ℕ} (hji : j ≠ i)
    (hj : s.calls[j]? = some y) : Compatible x y :=
  h.compatible i j x y (Ne.symm hji) hi hj

theorem Inv.loadPayments {ops : ℕ} (h : Inv R before s) (hi : s.calls[i]? = some x)
    (hx : x.phase = .persisting ops) (hcareful : ∀ y ∈ s.calls, ¬ y.phase.inProgress) :
    Inv R before (s.setPhase i x (.loadedPayments ops s.tracker.receivedPaymentCount)) := by
  refine h.keep hi (by rw [hx]; rfl) (by rw [hx]; rfl) (fun _ => rfl) (by rw [hx]; nofun)
    (fun j y hji hj => ?_) fun hgrows hflushed => ?_
  · have hxy := h.compatible_of hi hji hj
    refine ⟨?_, fun hprogress => hcareful y (List.mem_of_getElem? hj) hprogress.2, nofun, ?_⟩
    · intro o ho
      exact hxy.distinct o (by rw [hx]; exact ho)
    · intro o q ho _ hq
      exact hxy.behind o q ho (by rw [hx]; rfl) (by rw [hx]; exact hq)
  · refine ⟨s.opsSincePersist, h.below x (List.mem_of_getElem? hi) ops (by rw [hx]; rfl),
      hflushed _ h.flushed, ?_⟩
    exact (h.covered s.opsSincePersist .payments).grows hgrows h.flushed

theorem Inv.loadStores {ops payments : ℕ} (h : Inv R before s) (hi : s.calls[i]? = some x)
    (hx : x.phase = .loadedPayments ops payments) :
    Inv R before (s.setPhase i x (.loadedStores ops payments s.tracker.closeRecordsStored)) := by
  have hphase := h.phases x (List.mem_of_getElem? hi)
  rw [PhaseOk, hx] at hphase
  obtain ⟨n, hops, hn, hp⟩ := hphase
  refine h.keep hi (by rw [hx]; rfl) (by rw [hx]; rfl) (fun _ => rfl) (by rw [hx]; nofun)
    (fun j y hji hj => ?_) fun hgrows hflushed => ?_
  · exact (h.compatible_of hi hji hj).of_le (by rw [hx]; rfl) (by rw [hx]; exact id)
      (by rw [hx]; exact id) nofun
  · exact ⟨n, hops, hflushed n hn, hp.grows hgrows hn, (h.covered n .stores).grows hgrows hn⟩

theorem Inv.loadTypes {ops payments stores : ℕ} {bytes : Bytes} (h : Inv R before s)
    (hi : s.calls[i]? = some x) (hx : x.phase = .loadedStores ops payments stores)
    (hbytes : R.toVec ⟨payments, stores, s.tracker.recordsPerType⟩ = some bytes) :
    Inv R before (s.setPhase i x (.loaded ops bytes)) := by
  have hphase := h.phases x (List.mem_of_getElem? hi)
  rw [PhaseOk, hx] at hphase
  obtain ⟨n, hops, hn, hp, hs⟩ := hphase
  refine h.keep hi (by rw [hx]; rfl) (by rw [hx]; rfl) (fun _ => rfl) (by rw [hx]; nofun)
    (fun j y hji hj => ?_) fun hgrows hflushed => ?_
  · exact (h.compatible_of hi hji hj).of_le (by rw [hx]; rfl) (by rw [hx]; exact id)
      (by rw [hx]; exact id) nofun
  · refine ⟨n, hops, hflushed n hn, fun c maxRecords => ?_⟩
    have hrestored : QuotingMetricsTracker.withPersistence R maxRecords true (some bytes) =
        ⟨payments, maxRecords, stores, s.tracker.recordsPerType, 500⟩ := by
      simp [QuotingMetricsTracker.withPersistence, QuotingMetricsTracker.loadFromDisk,
        R.fromSlice_eq _ _ hbytes]
    rw [hrestored]
    cases c with
    | payments => exact hp.grows hgrows hn
    | stores => exact hs.grows hgrows hn
    | ofType t => exact (h.covered n (.ofType t)).grows hgrows hn

theorem Inv.finish {ops : ℕ} (h : Inv R before s) (hi : s.calls[i]? = some x)
    (hx : x.phase = .returning ops)
    (hcareful : ∀ y ∈ s.calls, y.phase.isPending → ∀ q ∈ y.phase.ops, ops ≤ q) :
    Inv R before (s.setPhase i x (.returned ops)) := by
  refine h.keep hi (by rw [hx]; rfl) (by rw [hx]; rfl) (by rw [hx]; nofun) (by rw [hx]; nofun)
    (fun j y hji hj => ?_) fun _ _ => trivial
  have hxy := h.compatible_of hi hji hj
  have hdistinct : y.phase.ops ≠ some ops := hxy.distinct ops (by rw [hx]; rfl)
  refine ⟨?_, fun hprogress => absurd hprogress.1 nofun, fun o q ho hpending hq => ?_, nofun⟩
  · intro o ho
    exact hxy.distinct o (by rw [hx]; exact ho)
  · obtain rfl := MetricsPhase.returned.inj ho
    have hle := hcareful y (List.mem_of_getElem? hj) hpending q hq
    refine lt_of_le_of_ne hle ?_
    rintro rfl
    exact hdistinct hq

/-- What a writing call has to write. -/
theorem Inv.writing {ops written : ℕ} {bytes : Bytes} (h : Inv R before s)
    (hi : s.calls[i]? = some x) (hx : x.phase = .writing ops bytes written) :
    (∃ n, ops < n ∧ s.Flushed n ∧ Restores R before s n (some bytes)) ∧
      written ≤ bytes.length ∧ s.file = some (bytes.take written) := by
  have hphase := h.phases x (List.mem_of_getElem? hi)
  rwa [PhaseOk, hx] at hphase

/-- The other calls, while one is at its snapshot. -/
theorem Inv.others (h : Inv R before s) (hi : s.calls[i]? = some x) (hx : x.phase.inProgress) {j : ℕ}
    (hji : j ≠ i) (hj : s.calls[j]? = some y) : PhaseOk R before s' y :=
  phaseOk_of_not_inProgress fun hy => (h.compatible_of hi hji hj).alone ⟨hx, hy⟩

/-- A step of the call that has the file open. -/
theorem Inv.writes {ops written : ℕ} {bytes : Bytes} {content : Option Bytes} (h : Inv R before s)
    (hi : s.calls[i]? = some x) (hprogress : x.phase.inProgress) (hops : x.phase.ops = some ops)
    (hbytes : ∃ n, ops < n ∧ s.Flushed n ∧ Restores R before s n (some bytes))
    (hwritten : written ≤ bytes.length) (hcontent : content = some (bytes.take written)) :
    Inv R before { s.setPhase i x (.writing ops bytes written) with file := content } := by
  have hgrows : Grows s { s.setPhase i x (.writing ops bytes written) with file := content } :=
    grows_set hi rfl rfl (fun _ => le_rfl) fun n _ => by rw [hops]; rfl
  obtain ⟨n, hlt, hn, hr⟩ := hbytes
  refine h.move hi (by rw [hops]; rfl) hops.symm (fun j y hji hj => ?_)
    (fun j y hji hj => h.others hi hprogress hji hj) ?_ fun hall => ?_
  · exact (h.compatible_of hi hji hj).of_le hops.symm (fun _ => hprogress)
      (fun _ => isPending_of_inProgress hprogress) nofun
  · exact ⟨⟨n, hlt, hn.set rfl le_rfl fun _ _ _ _ => rfl, hr.grows hgrows hn⟩, hwritten, hcontent⟩
  · exact absurd rfl (hall { x with phase := .writing ops bytes written } (mem_set_self hi))

theorem Inv.create {ops : ℕ} {bytes : Bytes} (h : Inv R before s) (hi : s.calls[i]? = some x)
    (hx : x.phase = .loaded ops bytes) :
    Inv R before { s.setPhase i x (.writing ops bytes 0) with file := some [] } := by
  have hphase := h.phases x (List.mem_of_getElem? hi)
  rw [PhaseOk, hx] at hphase
  exact h.writes hi (by rw [hx]; rfl) (by rw [hx]; rfl) hphase (Nat.zero_le _) rfl

theorem Inv.write {ops written : ℕ} {bytes : Bytes} (h : Inv R before s) (hi : s.calls[i]? = some x)
    (hx : x.phase = .writing ops bytes written) (k : ℕ) :
    Inv R before
      { s.setPhase i x (.writing ops bytes (written + ((bytes.drop written).take k).length)) with
        file := s.file.map fun content => writeAt content written ((bytes.drop written).take k) } := by
  obtain ⟨hbytes, hwritten, hcontent⟩ := h.writing hi hx
  refine h.writes hi (by rw [hx]; rfl) (by rw [hx]; rfl) hbytes ?_ ?_
  · rw [List.length_take, List.length_drop]
    omega
  · rw [hcontent, Option.map_some, writeAt_take bytes hwritten]

theorem Inv.close {ops : ℕ} {bytes : Bytes} (h : Inv R before s) (hi : s.calls[i]? = some x)
    (hx : x.phase = .writing ops bytes bytes.length) :
    Inv R before (s.setPhase i x (.returning ops)) := by
  obtain ⟨⟨n, hlt, hn, hr⟩, -, hcontent⟩ := h.writing hi hx
  have hprogress : x.phase.inProgress := by rw [hx]; rfl
  have hgrows : Grows s (s.setPhase i x (.returning ops)) :=
    grows_set hi rfl rfl (fun _ => le_rfl) fun n _ => by rw [hx]; rfl
  change Inv R before { s.setPhase i x (.returning ops) with file := s.file }
  refine h.move hi (by rw [hx]; rfl) (by rw [hx]; rfl) (fun j y hji hj => ?_)
    (fun j y hji hj => h.others hi hprogress hji hj) trivial fun _ => ⟨n, ?_, ?_⟩
  · exact (h.compatible_of hi hji hj).of_le (by rw [hx]; rfl) nofun nofun nofun
  · refine hn.set rfl le_rfl fun q hq _ hle => ?_
    obtain rfl := Option.some.inj hq
    omega
  · change Restores R before (s.setPhase i x (.returning ops)) n s.file
    rw [hcontent, List.take_length]
    exact hr.grows hgrows hn

theorem Inv.recordType {dataType : UInt32} (h : Inv R before s) (hi : s.calls[i]? = some x)
    (hx : x.phase = .counted) (hop : x.op = .store dataType)
    (hcareful : countOf dataType s.tracker.recordsPerType < 4294967295) :
    Inv R before
      { s.setPhase i x .recorded with tracker := s.tracker.recordType dataType } := by
  have hread : ∀ c : Counter, c.read (s.tracker.recordType dataType) = c.read s.tracker +
      if c.counts (.store dataType) && c.isOfType then 1 else 0 :=
    fun c => c.read_recordType hcareful
  have hgrows : Grows s
      { s.setPhase i x .recorded with tracker := s.tracker.recordType dataType } :=
    grows_set hi rfl rfl (fun c => by rw [hread c]; exact Nat.le_add_right _ _) fun n _ => by
      rw [hx]; rfl
  have hflushed : ∀ n, s.Flushed n →
      Flushed { s.setPhase i x .recorded with tracker := s.tracker.recordType dataType } n :=
    fun n hn => hn.set rfl le_rfl nofun
  have hcalls : (s.setPhase i x .recorded).calls = s.calls.set i { x with phase := .recorded } := rfl
  refine h.set hi hcalls (fun c => ?_) le_rfl ?_ nofun
    (fun o ho => Or.inl ho) (fun j y hji hj => ?_) (fun j y _ hj => ?_) trivial fun hall => ?_
  · rw [hread c]
    cases hc : c.isOfType <;> simp [Counter.hasCounted, hx, hop, hc]
  · rw [hx]
    nofun
  · exact (h.compatible_of hi hji hj).of_le (by rw [hx]; rfl) nofun nofun nofun
  · exact (h.phases y (List.mem_of_getElem? hj)).grows hgrows hflushed fun _ => rfl
  · exact h.file_grows hgrows hflushed rfl (not_writing_of_set hi (by rw [hx]; nofun) hall)

/-- A call draws its number, and writes if that is a multiple of the interval. -/
theorem Inv.draw (h : Inv R before s) (hi : s.calls[i]? = some x) (hx : x.phase = .recorded) :
    Inv R before
      { s.setPhase i x (if s.opsSincePersist % persistInterval = 0 then
          .persisting s.opsSincePersist else .returning s.opsSincePersist) with
        opsSincePersist := s.opsSincePersist + 1 } := by
  set phase : MetricsPhase := if s.opsSincePersist % persistInterval = 0 then
    .persisting s.opsSincePersist else .returning s.opsSincePersist with hphase
  have hops : phase.ops = some s.opsSincePersist := by rw [hphase]; split_ifs <;> rfl
  have hidle : ¬ phase.inProgress := by rw [hphase]; split_ifs <;> nofun
  have hnew : ∀ o, phase ≠ .returned o := by
    intro o
    rw [hphase]
    split_ifs <;> nofun
  have hgrows : Grows s
      { s.setPhase i x phase with opsSincePersist := s.opsSincePersist + 1 } := by
    refine grows_set hi rfl rfl (fun _ => le_rfl) fun n hn => ?_
    have hundrawn : x.phase.ops = none := by rw [hx]; rfl
    simp [hops, hundrawn, hn]
  have hflushed : ∀ n, s.Flushed n →
      Flushed { s.setPhase i x phase with opsSincePersist := s.opsSincePersist + 1 } n := by
    refine fun n hn => hn.set rfl (Nat.le_succ _) fun q hq hmod _ => ?_
    obtain rfl := Option.some.inj (hops.symm.trans hq)
    rw [hphase, if_pos hmod]
    rfl
  have hcalls : (s.setPhase i x phase).calls = s.calls.set i { x with phase := phase } := rfl
  refine h.set hi hcalls (fun c => ?_) (Nat.le_succ _) ?_
    (fun o ho => ?_) (fun o ho => ?_) (fun j y hji hj => ?_) (fun j y _ hj => ?_)
    (phaseOk_of_not_inProgress hidle) fun hall => ?_
  · have hne : phase ≠ .counted := by
      intro heq
      rw [heq] at hops
      cases hops
    simp [setPhase, Counter.hasCounted, hx, hne]
  · rw [hx]
    nofun
  · obtain rfl := Option.some.inj (hops.symm.trans ho)
    exact Nat.lt_succ_self _
  · rcases Nat.lt_succ_iff_lt_or_eq.1 ho with ho | rfl
    · exact Or.inl ho
    · exact Or.inr hops
  · have hy : ∀ o, y.phase.ops = some o → o < s.opsSincePersist :=
      h.below y (List.mem_of_getElem? hj)
    refine ⟨fun o ho hyo => ?_, fun hprogress => hidle hprogress.1,
      fun o q ho => absurd ho (hnew o), fun o q ho _ hq => ?_⟩
    · obtain rfl := Option.some.inj (hops.symm.trans ho)
      exact absurd (hy _ hyo) (lt_irrefl _)
    · obtain rfl := Option.some.inj (hops.symm.trans hq)
      exact hy o (by rw [ho]; rfl)
  · exact (h.phases y (List.mem_of_getElem? hj)).grows hgrows hflushed fun _ => rfl
  · exact h.file_grows hgrows hflushed rfl (not_writing_of_set hi (by rw [hx]; nofun) hall)

/-- A new call, with its first step. -/
theorem Inv.begin (h : Inv R before s) (op : MetricsOp) : Inv R before (s.begin op) := by
  obtain ⟨x, hcalls, hop, hundrawn, hread⟩ : ∃ x, (s.begin op).calls = s.calls ++ [x] ∧
      x.op = op ∧ x.phase.ops = none ∧ ∀ c : Counter, c.read (s.begin op).tracker =
        c.read s.tracker + if c.hasCounted x then 1 else 0 := by
    cases op with
    | payment =>
      refine ⟨⟨.payment, .recorded⟩, rfl, rfl, rfl, fun c => ?_⟩
      simpa [Metrics.begin, Counter.hasCounted] using c.read_recordPayment s.tracker
    | store dataType =>
      refine ⟨⟨.store dataType, .counted⟩, rfl, rfl, rfl, fun c => ?_⟩
      simpa [Metrics.begin, Counter.hasCounted] using c.read_recordStored s.tracker dataType
  have hsame : (s.begin op).opsSincePersist = s.opsSincePersist ∧ (s.begin op).file = s.file := by
    cases op <;> exact ⟨rfl, rfl⟩
  have hidle : ¬ x.phase.isPending := by
    intro hpending
    have hsome := ops_isSome_of_isPending hpending
    rw [hundrawn] at hsome
    cases hsome
  have hgrows : Grows s (s.begin op) := by
    refine ⟨fun c => by rw [hread c]; exact Nat.le_add_right _ _, fun n _ c => ?_⟩
    rw [Counter.drawn, hcalls, List.countP_append, Counter.drawn]
    simp [hundrawn]
  have hflushed : ∀ n, s.Flushed n → (s.begin op).Flushed n := by
    refine fun n hn => ⟨hn.1.trans_eq hsame.1.symm, ?_⟩
    rw [hcalls]
    refine forall_mem_append hn.2 fun q hq => ?_
    rw [hundrawn] at hq
    cases hq
  have hundrawn' : ∀ o, x.phase.ops ≠ some o := fun o ho => by rw [hundrawn] at ho; cases ho
  refine ⟨fun c => ?_, ?_, fun o ho => ?_, ?_, ?_, fun hall => ?_⟩
  · rw [hread c, h.read c, hcalls, List.countP_append, List.countP_singleton, Nat.add_assoc]
  · rw [hcalls, hsame.1]
    exact forall_mem_append h.below fun o ho => absurd ho (hundrawn' o)
  · rw [hsame.1] at ho
    obtain ⟨y, hy, hyo⟩ := h.drawn o ho
    exact ⟨y, by rw [hcalls]; exact List.mem_append_left _ hy, hyo⟩
  · rw [hcalls]
    refine h.compatible.concat (fun _ _ => Compatible.symm) fun y _ => ?_
    refine ⟨fun o ho => absurd ho (hundrawn' o),
      fun hprogress => hidle (isPending_of_inProgress hprogress.1),
      fun o q ho => absurd (by rw [ho]; rfl) (hundrawn' o),
      fun o q _ hpending => absurd hpending hidle⟩
  · rw [hcalls]
    refine forall_mem_append (fun y hy => ?_) (phaseOk_of_not_inProgress fun hprogress =>
      hidle (isPending_of_inProgress hprogress))
    exact (h.phases y hy).grows hgrows hflushed fun _ => hsame.2
  · refine h.file_grows hgrows hflushed hsame.2 fun y hy => hall y ?_
    rw [hcalls]
    exact List.mem_append_left _ hy

theorem Inv.advance (h : Inv R before s) (hi : s.calls[i]? = some x) (hcareful : CarefulCall R s x)
    (hstep : s.advance R i x = some s') : Inv R before s' ∧ s'.restarted = s.restarted := by
  rw [CarefulCall] at hcareful
  rw [Metrics.advance] at hstep
  cases hx : x.phase with
  | counted =>
    simp only [hx] at hcareful hstep
    cases hop : x.op with
    | payment =>
      rw [hop] at hstep
      cases hstep
    | store dataType =>
      rw [hop] at hcareful hstep
      obtain rfl := Option.some.inj hstep
      exact ⟨h.recordType hi hx hop hcareful, rfl⟩
  | recorded =>
    simp only [hx] at hstep
    obtain rfl := Option.some.inj hstep
    exact ⟨h.draw hi hx, rfl⟩
  | persisting ops =>
    simp only [hx] at hcareful hstep
    obtain rfl := Option.some.inj hstep
    exact ⟨h.loadPayments hi hx hcareful, rfl⟩
  | loadedPayments ops payments =>
    simp only [hx] at hstep
    obtain rfl := Option.some.inj hstep
    exact ⟨h.loadStores hi hx, rfl⟩
  | loadedStores ops payments stores =>
    simp only [hx] at hcareful hstep
    obtain ⟨bytes, hbytes⟩ := Option.isSome_iff_exists.1 hcareful
    rw [hbytes] at hstep
    obtain rfl := Option.some.inj hstep
    exact ⟨h.loadTypes hi hx hbytes, rfl⟩
  | writing ops bytes written =>
    simp only [hx] at hstep
    split_ifs at hstep with hwritten
    obtain rfl := Option.some.inj hstep
    exact ⟨h.close hi (by rw [hx, hwritten]), rfl⟩
  | returning ops =>
    simp only [hx] at hcareful hstep
    obtain rfl := Option.some.inj hstep
    exact ⟨h.finish hi hx hcareful, rfl⟩
  | loaded | returned =>
    simp only [hx] at hstep
    cases hstep

theorem Inv.callStep {a : MetricsAction} (h : Inv R before s) (hi : s.calls[i]? = some x)
    (hcall : call a = some i) (hcareful : Careful R s a) (hstep : s.callStep R i x a = some s') :
    Inv R before s' ∧ s'.restarted = s.restarted := by
  cases a with
  | begin op => cases hcall
  | restart readable => cases hcall
  | fail j => exact hcareful.elim
  | advance j =>
    obtain rfl := Option.some.inj hcall
    exact h.advance hi (hcareful x hi) hstep
  | create j =>
    simp only [Metrics.callStep] at hstep
    split at hstep
    · obtain rfl := Option.some.inj hstep
      exact ⟨h.create hi ‹_›, rfl⟩
    · cases hstep
  | write j k =>
    simp only [Metrics.callStep] at hstep
    split at hstep
    · obtain rfl := Option.some.inj hstep
      exact ⟨h.write hi ‹_› k, rfl⟩
    · cases hstep

theorem Inv.step {a : MetricsAction} (h : Inv R before s) (hcareful : Careful R s a)
    (hstep : s.step R a = some s') : Inv R before s' ∧ s'.Sound before := by
  have hsound : s'.restarted = none → s'.Sound before := by
    intro hnone after hafter
    rw [hnone] at hafter
    cases hafter
  have hrunning : ¬ s.restarted.isSome := by
    intro hsome
    unfold Metrics.step at hstep
    rw [if_pos hsome] at hstep
    cases hstep
  have hlive : s.restarted = none := by simpa using hrunning
  cases a with
  | begin op =>
    unfold Metrics.step at hstep
    rw [if_neg hrunning] at hstep
    obtain rfl := Option.some.inj hstep
    exact ⟨h.begin op, hsound (by cases op <;> exact hlive)⟩
  | restart readable =>
    unfold Metrics.step at hstep
    rw [if_neg hrunning] at hstep
    obtain rfl := Option.some.inj hstep
    obtain ⟨rfl, huntorn⟩ := hcareful
    refine ⟨⟨h.read, h.below, h.drawn, h.compatible, h.phases, h.file⟩, fun after hafter => ?_⟩
    obtain rfl := Option.some.inj hafter
    obtain ⟨n, hn, hr⟩ := h.restores huntorn
    exact boundedLoss_of_restores h hn hr
  | _ =>
    unfold Metrics.step at hstep
    rw [if_neg hrunning] at hstep
    obtain ⟨i, hcall, hstep⟩ := Option.bind_eq_some_iff.1 hstep
    obtain ⟨x, hi, hstep⟩ := Option.bind_eq_some_iff.1 hstep
    obtain ⟨hinv, hrestarted⟩ := h.callStep hi hcall hcareful hstep
    exact ⟨hinv, hsound (hrestarted.trans hlive)⟩

theorem inv_opened (R : Rmp) (maxRecords : ℕ) (file : Option Bytes) :
    Inv R (opened R maxRecords file).tracker (opened R maxRecords file) where
  read c := rfl
  below := nofun
  drawn := nofun
  compatible := nofun
  phases := nofun
  file _ := by
    refine ⟨0, ⟨le_rfl, nofun⟩, fun c m => ?_⟩
    have hread : c.read (.withPersistence R m true file) =
        c.read (opened R maxRecords file).tracker := by
      rw [opened, QuotingMetricsTracker.withPersistence, QuotingMetricsTracker.withPersistence]
      split <;> cases c <;> rfl
    exact ⟨hread.ge, hread.le⟩

/-- **A crash costs less than an interval of operations**, if snapshots are taken and written one
    after the other, and no call returns before what an earlier one has to write. -/
theorem bounded_loss {maxRecords : ℕ} {file : Option Bytes} {as : List MetricsAction}
    (h : Trace (Metrics.step R) (Careful R) (opened R maxRecords file) as s) :
    s.Sound (opened R maxRecords file).tracker := by
  refine (h.invariant (I := fun s => Inv R (opened R maxRecords file).tracker s ∧
    s.Sound (opened R maxRecords file).tracker) (fun _ _ _ hcareful hi hstep =>
      hi.1.step hcareful hstep) ⟨inv_opened R maxRecords file, nofun⟩).2

/-- MessagePack of small counts, and of no records. -/
def fixints : Rmp where
  toVec data :=
    if data.receivedPaymentCount < 128 ∧ data.closeRecordsStored < 128 ∧ data.recordsPerType = [] then
      some [0x93, UInt8.ofNat data.receivedPaymentCount, UInt8.ofNat data.closeRecordsStored, 0x90]
    else none
  fromSlice
    | [0x93, payments, stores, 0x90] => some ⟨payments.toNat, stores.toNat, []⟩
    | _ => none
  fromSlice_eq data bytes h := by
    split_ifs at h with hsmall
    obtain rfl := Option.some.inj h
    obtain ⟨hp, hs, ht⟩ := hsmall
    obtain ⟨payments, stores, types⟩ := data
    simp_all
    omega

/-- The steps of a payment that is not written, and of one that is. -/
def pay (i : ℕ) : List MetricsAction := [.begin .payment, .advance i, .advance i]

def payAndWrite (i : ℕ) : List MetricsAction :=
  [.begin .payment, .advance i, .advance i, .advance i, .advance i, .create i, .write i 4,
    .advance i, .advance i]

/-- One payment, which is written, and nine more. -/
def tenPayments : List MetricsAction := payAndWrite 0 ++ (List.range 9).flatMap fun i => pay (i + 1)

theorem bounded_loss_ten :
    ∃ s, (s.restarted.map QuotingMetricsTracker.receivedPaymentCount) = some 1 ∧
      Trace (Metrics.step fixints) (Careful fixints) (opened fixints 1000 none)
        (tenPayments ++ [MetricsAction.restart true]) s ∧ s.Sound (opened fixints 1000 none).tracker := by
  have hrun : ((tenPayments ++ [MetricsAction.restart true]).foldlM
      (guarded (Metrics.step fixints) (Careful fixints)) (opened fixints 1000 none)).map
        (fun s : Metrics => s.restarted.map QuotingMetricsTracker.receivedPaymentCount) =
          some (some 1) := by
    decide +kernel
  obtain ⟨s, hs, hcount⟩ := Option.map_eq_some_iff.1 hrun
  have htrace := trace_iff.2 hs
  exact ⟨s, hcount, htrace, bounded_loss htrace⟩

/-- The next payment opens the file to write, and the process crashes. -/
def truncated : List MetricsAction :=
  tenPayments ++ [.begin .payment, .advance 10, .advance 10, .advance 10, .advance 10, .create 10,
    .restart true]

theorem not_bounded_loss :
    ¬ ∀ as s, Runs (Metrics.step fixints) (opened fixints 1000 none) as s →
      s.Sound (opened fixints 1000 none).tracker := by
  intro h
  have hrun : (truncated.foldlM (Metrics.step fixints) (opened fixints 1000 none)).map
      (fun s : Metrics => s.restarted.map fun after =>
        missing (opened fixints 1000 none).tracker after s.calls .payments) = some (some 10) := by
    decide +kernel
  obtain ⟨s, hs, hcount⟩ := Option.map_eq_some_iff.1 hrun
  obtain ⟨after, hafter, hmissing⟩ := Option.map_eq_some_iff.1 hcount
  have hlt := (h truncated s (runs_iff.2 hs) after hafter).missed
  rw [hmissing] at hlt
  exact absurd (lt_of_le_of_lt (Nat.le_add_right _ _) hlt) (by decide)

end Metrics

end Autonomi.AntNode
