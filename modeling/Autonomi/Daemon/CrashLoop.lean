/-
  Crash loops of one node: what `record_crash` detects, and the backoff that it answers.
-/
import Autonomi.Daemon.Supervisor
import Autonomi.Lib.Trace

namespace Autonomi.Daemon

open Lib

/-! ## The history of a node -/

inductive Entry where
  | started (now : ℕ)
  | crashed (now : ℕ)
  | restarted (now : ℕ)
  deriving DecidableEq, Repr

/-- The crashes since the last start, the latest first. -/
def crashesSinceStart : List Entry → List ℕ
  | [] => []
  | .started _ :: _ => []
  | .crashed now :: log => now :: crashesSinceStart log
  | .restarted _ :: log => crashesSinceStart log

/-- When the process that ran last was started. -/
def runStart : List Entry → ℕ
  | [] => 0
  | .started now :: _ => now
  | .crashed _ :: log => runStart log
  | .restarted now :: _ => now

/-- The crashes counted since the last reset, the latest first: a start resets the count, and so
    does a run of at least `stableDuration`. -/
def crashesSinceReset : List Entry → List ℕ
  | [] => []
  | .started _ :: _ => []
  | .crashed now :: log =>
    if now - runStart log ≥ stableDuration then [now] else now :: crashesSinceReset log
  | .restarted _ :: log => crashesSinceReset log

/-- The latest five crashes fall within a span shorter than the window. -/
def Burst (crashes : List ℕ) : Prop :=
  ∃ now ∈ crashes[0]?, ∃ first ∈ crashes[4]?, now - first < crashWindow

instance (crashes : List ℕ) : Decidable (Burst crashes) :=
  Option.decidableExistsMem _

/-! ## The runs -/

/-- What the monitor of the node is doing. -/
inductive Phase where
  /-- There is no process to monitor. -/
  | idle
  /-- It waits for the process to exit. -/
  | waiting
  /-- It sleeps before a restart. -/
  | sleeping (backoff : ℕ)
  deriving DecidableEq, Repr

/-- The supervisor's view of the node, its monitor, and what has happened. -/
structure Node where
  sup : Supervisor
  phase : Phase
  clock : ℕ
  log : List Entry

inductive Event where
  | start (now : ℕ) (spawned : Spawned)
  | crash (now : ℕ)
  /-- The end of the sleep; there is no pid if the process cannot be spawned. -/
  | restart (now : ℕ) (pid : Option ℕ)
  deriving DecidableEq, Repr

def Event.now : Event → ℕ
  | .start now _ => now
  | .crash now => now
  | .restart now _ => now

namespace Node

variable (nodeId : ℕ)

def fresh : Node := ⟨.new, .idle, 0, []⟩

def start (s : Node) (now : ℕ) (spawned : Spawned) : Node :=
  match s.sup.startNode nodeId spawned now with
  | (sup, .ok _) => ⟨sup, .waiting, now, .started now :: s.log⟩
  | (sup, .error _) => { s with sup := sup, clock := now }

/-- The crash branch of `monitor_node`, up to its sleep. -/
def crash (s : Node) (now : ℕ) : Node :=
  match s.sup.recordCrash nodeId now with
  | (sup, shouldRestart, _, backoff) =>
    ⟨sup, if shouldRestart then .sleeping backoff else .idle, now, .crashed now :: s.log⟩

/-- The crash branch of `monitor_node`, after its sleep. -/
def restart (s : Node) (now : ℕ) : Option ℕ → Node
  | some pid =>
    ⟨s.sup.updateState nodeId .running (some pid) now, .waiting, now, .restarted now :: s.log⟩
  | none => ⟨s.sup.updateState nodeId .errored none now, .idle, now, s.log⟩

def step (s : Node) (e : Event) : Option Node :=
  if e.now < s.clock then none else
    match e, s.phase with
    | .start now spawned, _ => some (s.start nodeId now spawned)
    | .crash now, .waiting => some (s.crash nodeId now)
    | .restart now pid, .sleeping _ => some (s.restart nodeId now pid)
    | .crash _, _ | .restart _ _, _ => none

end Node

def Phase.backoff : Phase → Option ℕ
  | .sleeping backoff => some backoff
  | .idle | .waiting => none

/-- The crash that completes a burst is not answered by a restart and leaves the node errored, no
    other crash does, and the backoff of a restart is exponential up to its cap. -/
def ExactAt (nodeId : ℕ) (s : Node) : Event → Prop
  | .crash now =>
    let s' := s.crash nodeId now
    (Burst (crashesSinceStart s'.log) →
      s'.phase = .idle ∧ (s'.sup.nodeStates nodeId).map NodeRuntime.status = some .errored) ∧
    ((s'.sup.nodeStates nodeId).map NodeRuntime.status = some .errored →
      Burst (crashesSinceStart s'.log)) ∧
    ∀ backoff ∈ s'.phase.backoff,
      backoff = min (secs (2 ^ ((crashesSinceReset s'.log).length - 1))) maxBackoff
  | .start _ _ | .restart _ _ => True

/-- A crash that completes a burst comes less than `crashWindow` after the first one counted, and
    no crash is the seventh counted. -/
def AnchoredAt (s : Node) : Event → Prop
  | .crash now =>
    let log := .crashed now :: s.log
    (Burst (crashesSinceStart log) →
      ∀ first ∈ (crashesSinceReset log).getLast?, now - first < crashWindow) ∧
    (crashesSinceReset log).length < 7
  | .start _ _ | .restart _ _ => True

instance (nodeId : ℕ) (s : Node) (e : Event) : Decidable (ExactAt nodeId s e) :=
  match e with
  | .crash _ => inferInstanceAs (Decidable (_ ∧ _ ∧ _))
  | .start _ _ | .restart _ _ => isTrue trivial

instance (s : Node) (e : Event) : Decidable (AnchoredAt s e) :=
  match e with
  | .crash _ => inferInstanceAs (Decidable (_ ∧ _))
  | .start _ _ | .restart _ _ => isTrue trivial

variable {nodeId now : ℕ} {log : List Entry} {s s' : Node} {e : Event}

/-! ## The crashes of a history -/

theorem crashesSinceReset_eq_nil :
    crashesSinceReset log = [] ↔ crashesSinceStart log = [] := by
  induction log with
  | nil => simp [crashesSinceReset, crashesSinceStart]
  | cons e log ih =>
    cases e with
    | started _ => simp [crashesSinceReset, crashesSinceStart]
    | crashed _ => simp only [crashesSinceReset, crashesSinceStart]; split_ifs <;> simp
    | restarted _ => simpa [crashesSinceReset, crashesSinceStart] using ih

theorem getLast?_crashesSinceReset_isSome (now : ℕ) (log : List Entry) :
    (crashesSinceReset (.crashed now :: log)).getLast?.isSome := by
  simp only [crashesSinceReset]
  split_ifs <;> simp

theorem mem_crashesSinceReset : now ∈ crashesSinceReset (.crashed now :: log) := by
  simp only [crashesSinceReset]
  split_ifs <;> simp

theorem head?_crashesSinceReset :
    (crashesSinceReset (.crashed now :: log)).head? = some now := by
  simp only [crashesSinceReset]
  split_ifs <;> rfl

theorem length_crashesSinceReset_pos : 0 < (crashesSinceReset (.crashed now :: log)).length :=
  List.length_pos_of_mem mem_crashesSinceReset

/-- The crashes counted are the latest ones, and lie `stableDuration` after the others. -/
structure Segmented (log : List Entry) : Prop where
  split : ∃ rest, crashesSinceStart log = crashesSinceReset log ++ rest ∧
    ∀ t ∈ rest, ∀ t' ∈ crashesSinceReset log, t + stableDuration ≤ t'
  sorted : (crashesSinceReset log).Pairwise (· ≥ ·)

theorem Segmented.crash (h : Segmented log) (hle : ∀ t ∈ crashesSinceStart log, t ≤ runStart log)
    (hnow : runStart log ≤ now) : Segmented (.crashed now :: log) := by
  obtain ⟨rest, hsplit, hrest⟩ := h.split
  have hcounted : ∀ t ∈ crashesSinceReset log, t ≤ now :=
    fun t ht => (hle t (hsplit ▸ List.mem_append_left _ ht)).trans hnow
  by_cases hstable : now - runStart log ≥ stableDuration
  · have heq : crashesSinceReset (.crashed now :: log) = [now] := if_pos hstable
    refine ⟨⟨crashesSinceStart log, by rw [heq]; rfl, ?_⟩, by rw [heq]; simp⟩
    intro t ht t' ht'
    rw [heq, List.mem_singleton] at ht'
    have := hle t ht
    omega
  · have heq : crashesSinceReset (.crashed now :: log) = now :: crashesSinceReset log :=
      if_neg hstable
    refine ⟨⟨rest, by rw [heq, crashesSinceStart, hsplit]; rfl, ?_⟩, ?_⟩
    · intro t ht t' ht'
      rw [heq] at ht'
      rcases List.mem_cons.1 ht' with rfl | ht'
      · -- a crash before the reset is followed by one that is counted
        obtain ⟨a, ha⟩ : ∃ a, a ∈ crashesSinceReset log := by
          refine List.exists_mem_of_ne_nil _ fun hnil => ?_
          have hstart := crashesSinceReset_eq_nil.1 hnil
          rw [hsplit, hnil, List.nil_append] at hstart
          simp [hstart] at ht
        exact (hrest t ht a ha).trans (hcounted a ha)
      · exact hrest t ht t' ht'
    · rw [heq, List.pairwise_cons]
      exact ⟨hcounted, h.sorted⟩

/-- The five crashes of a burst are all counted. -/
theorem Segmented.burst_iff (h : Segmented (.crashed now :: log)) :
    Burst (crashesSinceStart (.crashed now :: log)) ↔
      ∃ first ∈ (crashesSinceReset (.crashed now :: log))[4]?, now - first < crashWindow := by
  obtain ⟨rest, hsplit, hrest⟩ := h.split
  have hburst : Burst (crashesSinceStart (.crashed now :: log)) ↔
      ∃ first ∈ (crashesSinceStart (.crashed now :: log))[4]?, now - first < crashWindow := by
    simp [Burst, crashesSinceStart]
  rw [hburst, hsplit]
  constructor
  · rintro ⟨first, hfirst, hlt⟩
    refine ⟨first, ?_, hlt⟩
    by_cases h4 : 4 < (crashesSinceReset (.crashed now :: log)).length
    · rwa [List.getElem?_append_left h4] at hfirst
    · rw [List.getElem?_append_right (by omega)] at hfirst
      have := hrest first (List.mem_of_getElem? hfirst) now mem_crashesSinceReset
      simp only [stableDuration, crashWindow] at this hlt
      omega
  · rintro ⟨first, hfirst, hlt⟩
    refine ⟨first, ?_, hlt⟩
    rwa [List.getElem?_append_left (List.getElem?_eq_some_iff.1 hfirst).1]

/-- What `record_crash` tests: five crashes are counted, and the first lies in the window. -/
def Anchored (now : ℕ) (counted : List ℕ) : Prop :=
  5 ≤ counted.length ∧ ∀ first ∈ counted.getLast?, now - first < crashWindow

theorem Segmented.burst_of_anchored (h : Segmented (.crashed now :: log))
    (ha : Anchored now (crashesSinceReset (.crashed now :: log))) :
    Burst (crashesSinceStart (.crashed now :: log)) := by
  rw [h.burst_iff]
  obtain ⟨h5, hlast⟩ := ha
  have hsorted := h.sorted
  generalize crashesSinceReset (.crashed now :: log) = counted at *
  refine ⟨counted[4], List.getElem?_eq_getElem _, ?_⟩
  have hne : counted ≠ [] := by rintro rfl; simp at h5
  have hle : counted.getLast hne ≤ counted[4] := by
    rw [List.getLast_eq_getElem]
    rcases Nat.lt_or_eq_of_le (show 4 ≤ counted.length - 1 by omega) with hlt | heq
    · exact List.pairwise_iff_getElem.1 hsorted _ _ (by omega) (by omega) hlt
    · simp [← heq]
  have := hlast _ (List.getLast?_eq_getLast_of_ne_nil hne)
  omega

theorem Segmented.anchored_iff (h : Segmented (.crashed now :: log)) :
    Anchored now (crashesSinceReset (.crashed now :: log)) ↔
      Burst (crashesSinceStart (.crashed now :: log)) ∧
      ∀ first ∈ (crashesSinceReset (.crashed now :: log)).getLast?, now - first < crashWindow := by
  refine ⟨fun ha => ⟨h.burst_of_anchored ha, ha.2⟩, fun ⟨hburst, hlast⟩ => ⟨?_, hlast⟩⟩
  obtain ⟨first, hfirst, -⟩ := h.burst_iff.1 hburst
  exact (List.getElem?_eq_some_iff.1 hfirst).1

/-! ## What the runtime state knows of the history -/

/-- The counter and the first crash, as the history has them. -/
structure Runtime (rt : NodeRuntime) (log : List Entry) : Prop where
  status : rt.status = .running
  startedAt : rt.startedAt = some (runStart log)
  restartCount : rt.restartCount = (crashesSinceReset log).length
  firstCrashAt : rt.firstCrashAt = (crashesSinceReset log).getLast?

variable {rt : NodeRuntime}

theorem Runtime.countCrash (h : Runtime rt log) (hfew : (crashesSinceReset log).length < 7)
    (now : ℕ) :
    let rt' := (rt.resetIfStable now).countCrash now
    rt'.status = .running ∧ rt'.startedAt = some (runStart log) ∧
      rt'.restartCount = (crashesSinceReset (.crashed now :: log)).length ∧
      rt'.firstCrashAt = (crashesSinceReset (.crashed now :: log)).getLast? := by
  by_cases hstable : now - runStart log ≥ stableDuration
  · simp [NodeRuntime.resetIfStable, NodeRuntime.countCrash, h.startedAt, hstable, h.status,
      crashesSinceReset]
  · have hmod : ((crashesSinceReset log).length + 1) % 2 ^ 32 =
        (crashesSinceReset log).length + 1 :=
      Nat.mod_eq_of_lt (by omega)
    simp only [NodeRuntime.resetIfStable, NodeRuntime.countCrash, h.startedAt, hstable, if_false,
      h.status, h.restartCount, h.firstCrashAt, crashesSinceReset, hmod, List.length_cons, true_and]
    cases crashesSinceReset log with
    | nil => simp
    | cons t counted => simp [List.getLast?_cons]

/-- **What a crash does**, by the history. -/
theorem crash_eq (hrt : s.sup.nodeStates nodeId = some rt) (h : Runtime rt s.log)
    (hfew : (crashesSinceReset s.log).length < 7) (now : ℕ) :
    (Anchored now (crashesSinceReset (.crashed now :: s.log)) →
      (s.crash nodeId now).phase = .idle ∧
        ((s.crash nodeId now).sup.nodeStates nodeId).map NodeRuntime.status = some .errored) ∧
    (¬ Anchored now (crashesSinceReset (.crashed now :: s.log)) →
      (s.crash nodeId now).phase =
        .sleeping (backoffOf (crashesSinceReset (.crashed now :: s.log)).length) ∧
      ∃ rt', (s.crash nodeId now).sup.nodeStates nodeId = some rt' ∧
        Runtime rt' (.crashed now :: s.log)) := by
  obtain ⟨hstatus, hstarted, hcount, hfirst⟩ := h.countCrash hfew now
  have htest : ((rt.resetIfStable now).countCrash now).restartCount ≥ maxCrashesBeforeErrored ∧
      (((rt.resetIfStable now).countCrash now).firstCrashAt.any fun firstCrash =>
        now - firstCrash < crashWindow) ↔
      Anchored now (crashesSinceReset (.crashed now :: s.log)) := by
    rw [hcount, hfirst, Anchored]
    obtain ⟨first, hlast⟩ := Option.isSome_iff_exists.1
      (getLast?_crashesSinceReset_isSome now s.log)
    simp [hlast, maxCrashesBeforeErrored]
  constructor
  · intro ha
    rw [← htest] at ha
    simp [Node.crash, Supervisor.recordCrash, hrt, if_pos ha]
  · intro ha
    rw [← htest] at ha
    set rt' := (rt.resetIfStable now).countCrash now
    have hrec : s.sup.recordCrash nodeId now =
        (s.sup.insert nodeId rt', true, rt'.restartCount, backoffOf rt'.restartCount) := by
      rw [Supervisor.recordCrash, hrt]
      exact if_neg ha
    rw [Node.crash, hrec, hcount]
    exact ⟨rfl, rt', Supervisor.insert_self _ _ _, hstatus, hstarted, hcount, hfirst⟩

/-! ## The invariant -/

/-- What holds of a node whose monitor has a process or is about to restart one. -/
structure Tracks (nodeId : ℕ) (s : Node) : Prop where
  runtime : ∃ rt, s.sup.nodeStates nodeId = some rt ∧ Runtime rt s.log
  few : (crashesSinceReset s.log).length < 7
  segmented : Segmented s.log
  past : ∀ t ∈ crashesSinceStart s.log, t ≤ s.clock
  waiting : s.phase = .waiting →
    runStart s.log ≤ s.clock ∧ ∀ t ∈ crashesSinceStart s.log, t ≤ runStart s.log
  /-- A fifth crash that was answered by a restart came after the window. -/
  survived : 5 ≤ (crashesSinceReset s.log).length →
    ∀ first ∈ (crashesSinceReset s.log).getLast?, ∀ last ∈ (crashesSinceReset s.log).head?,
      first + crashWindow ≤ last

def Inv (nodeId : ℕ) (s : Node) : Prop := s.phase ≠ .idle → Tracks nodeId s

theorem backoffOf_eq_iff {k : ℕ} (hpos : 0 < k) (hle : k ≤ 7) :
    backoffOf k = min (secs (2 ^ (k - 1))) maxBackoff ↔ k < 7 := by
  interval_cases k <;> decide

/-- What is still in the window has been counted less than seven times. -/
theorem Tracks.few_of_anchored (h : Tracks nodeId s) (hnow : s.clock ≤ now)
    (ha : Anchored now (crashesSinceReset (.crashed now :: s.log))) :
    (crashesSinceReset (.crashed now :: s.log)).length < 7 := by
  obtain ⟨-, hlast⟩ := ha
  by_cases hstable : now - runStart s.log ≥ stableDuration
  · simp [crashesSinceReset, hstable]
  · have heq : crashesSinceReset (.crashed now :: s.log) = now :: crashesSinceReset s.log :=
      if_neg hstable
    rw [heq] at hlast ⊢
    by_contra h7
    have h6 : 6 ≤ (crashesSinceReset s.log).length := by
      rw [List.length_cons] at h7
      omega
    have hsurvived := h.survived (by omega)
    obtain ⟨rest, hsplit, -⟩ := h.segmented.split
    have hpast : ∀ t ∈ crashesSinceReset s.log, t ≤ s.clock :=
      fun t ht => h.past t (hsplit ▸ List.mem_append_left _ ht)
    rcases hcounted : crashesSinceReset s.log with _ | ⟨last, counted⟩
    · simp [hcounted] at h6
    · rw [hcounted] at hlast hsurvived hpast
      obtain ⟨first, hfirst⟩ : ∃ first, (last :: counted).getLast? = some first :=
        ⟨_, List.getLast?_eq_getLast_of_ne_nil (List.cons_ne_nil _ _)⟩
      have h1 := hsurvived first hfirst last rfl
      have h2 := hlast first (by rw [List.getLast?_cons, hfirst]; rfl)
      have h3 := hpast last (by simp)
      omega

/-- The crash of a tracked node is as it should be if and only if it is anchored. -/
theorem Tracks.exactAt_iff (h : Tracks nodeId s) (hw : s.phase = .waiting) (hnow : s.clock ≤ now) :
    ExactAt nodeId s (.crash now) ↔ AnchoredAt s (.crash now) := by
  obtain ⟨rt, hrt, hruntime⟩ := h.runtime
  obtain ⟨hrun, hle⟩ := h.waiting hw
  have hseg : Segmented (.crashed now :: s.log) := h.segmented.crash hle (hrun.trans hnow)
  obtain ⟨herr, hsleep⟩ := crash_eq hrt hruntime h.few now
  have hlog : (s.crash nodeId now).log = .crashed now :: s.log := rfl
  have hlen : (crashesSinceReset (.crashed now :: s.log)).length ≤ 7 := by
    have := h.few
    simp only [crashesSinceReset]
    split_ifs
    · simp
    · simpa using this
  simp only [ExactAt, AnchoredAt, hlog]
  by_cases ha : Anchored now (crashesSinceReset (.crashed now :: s.log))
  · obtain ⟨hphase, hstatus⟩ := herr ha
    have hfew := h.few_of_anchored hnow ha
    simp only [hphase, hstatus, Phase.backoff, hseg.burst_of_anchored ha, hfew, Option.mem_def,
      reduceCtorEq, false_imp_iff, implies_true, and_self, true_imp_iff, and_true, true_iff]
    exact ha.2
  · obtain ⟨hphase, rt', hrt', hruntime'⟩ := hsleep ha
    rw [hseg.anchored_iff, not_and] at ha
    simp only [hphase, hrt', Phase.backoff, Option.map_some, hruntime'.status, Option.mem_def,
      Option.some.injEq, reduceCtorEq, and_false, forall_eq', false_imp_iff, true_and,
      backoffOf_eq_iff length_crashesSinceReset_pos hlen]
    refine and_congr_left' ⟨?_, fun h hburst => ha hburst (h hburst)⟩
    intro hno hburst
    exact absurd hburst hno

/-! ## The steps -/

theorem step_cases (h : s.step nodeId e = some s') : s.clock ≤ e.now ∧
    ((∃ now spawned, e = .start now spawned ∧ s' = s.start nodeId now spawned) ∨
      (∃ now, e = .crash now ∧ s.phase = .waiting ∧ s' = s.crash nodeId now) ∨
      ∃ now pid backoff, e = .restart now pid ∧ s.phase = .sleeping backoff ∧
        s' = s.restart nodeId now pid) := by
  unfold Node.step at h
  split_ifs at h with hclock
  refine ⟨not_lt.1 hclock, ?_⟩
  split at h
  · exact Or.inl ⟨_, _, rfl, (Option.some.inj h).symm⟩
  · exact Or.inr (Or.inl ⟨_, rfl, by assumption, (Option.some.inj h).symm⟩)
  · exact Or.inr (Or.inr ⟨_, _, _, rfl, by assumption, (Option.some.inj h).symm⟩)
  · cases h
  · cases h

/-- A node that is tracked is running for the supervisor, and is not started again. -/
theorem Tracks.start_eq (h : Tracks nodeId s) (now : ℕ) (spawned : Spawned) :
    s.start nodeId now spawned = { s with clock := now } := by
  obtain ⟨rt, hrt, hruntime⟩ := h.runtime
  have hrunning : s.sup.isRunning nodeId = true := by
    simp [Supervisor.isRunning, hrt, hruntime.status]
  simp [Node.start, Supervisor.startNode, hrunning]

theorem Inv.start (h : Inv nodeId s) (hnow : s.clock ≤ now) (spawned : Spawned) :
    Inv nodeId (s.start nodeId now spawned) := by
  intro hphase
  by_cases hidle : s.phase = .idle
  · unfold Node.start Supervisor.startNode at hphase ⊢
    split_ifs at hphase ⊢
    · exact absurd hidle hphase
    · cases spawned with
      | failed _ | noPid | exited _ => exact absurd hidle hphase
      | running pid =>
        exact
          { runtime := ⟨_, Supervisor.insert_self _ _ _, rfl, rfl, rfl, rfl⟩
            few := by simp [crashesSinceReset]
            segmented := ⟨⟨[], rfl, by simp⟩, by simp [crashesSinceReset]⟩
            past := by simp [crashesSinceStart]
            waiting := fun _ => ⟨le_rfl, by simp [crashesSinceStart]⟩
            survived := by simp [crashesSinceReset] }
  · have htracks := h hidle
    rw [htracks.start_eq]
    exact
      { runtime := htracks.runtime
        few := htracks.few
        segmented := htracks.segmented
        past := fun t ht => (htracks.past t ht).trans hnow
        waiting := fun hw => ⟨(htracks.waiting hw).1.trans hnow, (htracks.waiting hw).2⟩
        survived := htracks.survived }

theorem Inv.crash (h : Inv nodeId s) (hw : s.phase = .waiting) (hnow : s.clock ≤ now)
    (hP : AnchoredAt s (.crash now)) : Inv nodeId (s.crash nodeId now) := by
  intro hphase
  have htracks : Tracks nodeId s := h (by simp [hw])
  obtain ⟨rt, hrt, hruntime⟩ := htracks.runtime
  obtain ⟨hrun, hle⟩ := htracks.waiting hw
  obtain ⟨herr, hsleep⟩ := crash_eq hrt hruntime htracks.few now
  by_cases ha : Anchored now (crashesSinceReset (.crashed now :: s.log))
  · exact absurd (herr ha).1 hphase
  · obtain ⟨hsleeping, hruntime'⟩ := hsleep ha
    exact
      { runtime := hruntime'
        few := hP.2
        segmented := htracks.segmented.crash hle (hrun.trans hnow)
        past := by
          intro t ht
          rcases List.mem_cons.1 ht with rfl | ht
          · exact le_rfl
          · exact (htracks.past t ht).trans hnow
        waiting := fun hwaiting => by rw [hsleeping] at hwaiting; cases hwaiting
        survived := by
          intro h5 first hfirst last hlast
          obtain rfl : now = last := Option.some.inj (head?_crashesSinceReset.symm.trans hlast)
          by_contra hlt
          refine ha ⟨h5, fun first' hfirst' => ?_⟩
          obtain rfl : first = first' := Option.some.inj (hfirst.symm.trans hfirst')
          simp only [crashWindow, secs] at hlt ⊢
          omega }

theorem Inv.restart {backoff : ℕ} (h : Inv nodeId s) (hs : s.phase = .sleeping backoff)
    (hnow : s.clock ≤ now) (pid : Option ℕ) : Inv nodeId (s.restart nodeId now pid) := by
  intro hphase
  have htracks : Tracks nodeId s := h (by simp [hs])
  obtain ⟨rt, hrt, hruntime⟩ := htracks.runtime
  cases pid with
  | none => exact absurd rfl hphase
  | some pid =>
    have hpast : ∀ t ∈ crashesSinceStart s.log, t ≤ now :=
      fun t ht => (htracks.past t ht).trans hnow
    exact
      { runtime := ⟨{ rt with status := .running, pid := some pid, startedAt := some now },
          by simp [Node.restart, Supervisor.updateState, hrt],
          rfl, rfl, hruntime.restartCount, hruntime.firstCrashAt⟩
        few := htracks.few
        segmented := ⟨htracks.segmented.split, htracks.segmented.sorted⟩
        past := hpast
        waiting := fun _ => ⟨le_rfl, hpast⟩
        survived := htracks.survived }

theorem Inv.step (h : Inv nodeId s) (hP : AnchoredAt s e) (hstep : s.step nodeId e = some s') :
    Inv nodeId s' := by
  obtain ⟨hnow, ⟨now, spawned, rfl, rfl⟩ | ⟨now, rfl, hw, rfl⟩ |
    ⟨now, pid, backoff, rfl, hs, rfl⟩⟩ := step_cases hstep
  · exact h.start hnow spawned
  · exact h.crash hw hnow hP
  · exact h.restart hs hnow pid

theorem inv_fresh : Inv nodeId .fresh := fun h => absurd rfl h

theorem Inv.exactAt_iff (h : Inv nodeId s) (hstep : s.step nodeId e = some s') :
    ExactAt nodeId s e ↔ AnchoredAt s e := by
  obtain ⟨hnow, ⟨now, spawned, rfl, rfl⟩ | ⟨now, rfl, hw, rfl⟩ |
    ⟨now, pid, backoff, rfl, hs, rfl⟩⟩ := step_cases hstep
  · exact Iff.rfl
  · exact (h (by simp [hw])).exactAt_iff hw hnow
  · exact Iff.rfl

/-- **Crash-loop detection is exact in a run if and only if** each crash that completes a burst is
    within the window of the first one counted, and no crash is the seventh counted. -/
theorem crash_loop_exact_iff (nodeId : ℕ) (es : List Event) (s : Node) :
    Trace (Node.step nodeId) (ExactAt nodeId) .fresh es s ↔
      Trace (Node.step nodeId) AnchoredAt .fresh es s :=
  Trace.iff_of_invariant (fun _ _ _ h hP => h.step hP) (fun _ _ _ h => h.exactAt_iff) inv_fresh

/-- A crash after five minutes, and then four within half a minute. -/
def slowThenBurst : List Event :=
  [.start 0 (.running 1), .crash 0, .restart (secs 1) (some 2), .crash (secs 300),
    .restart (secs 302) (some 3), .crash (secs 303), .restart (secs 307) (some 4),
    .crash (secs 308), .restart (secs 316) (some 5), .crash (secs 317),
    .restart (secs 333) (some 6), .crash (secs 334)]

/-- The first run is slow to crash, and the burst after it is not detected: the fifth crash of it is
    answered by another restart. -/
theorem not_crash_loop_exact :
    ¬ ∀ es s, Runs (Node.step 7) .fresh es s → Trace (Node.step 7) (ExactAt 7) .fresh es s := by
  intro h
  have hsome : (slowThenBurst.foldlM (Node.step 7) .fresh).isSome := by decide
  obtain ⟨s, hs⟩ := Option.isSome_iff_exists.1 hsome
  have hguarded := trace_iff.1 (h _ s (runs_iff.2 hs))
  have hnone : slowThenBurst.foldlM (guarded (Node.step 7) (ExactAt 7)) .fresh = none :=
    Option.isNone_iff_eq_none.1 (by decide)
  rw [hnone] at hguarded
  cases hguarded

end Autonomi.Daemon
