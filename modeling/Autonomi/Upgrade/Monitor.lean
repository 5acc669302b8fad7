/-
  The upgrade monitor and its staged rollout.
-/
import Autonomi.Lib.Since

namespace Autonomi.Upgrade

open Lib

variable {V N ε : Type}

structure UpgradeInfo (V : Type) where
  version : V
  downloadUrl : String
  signatureUrl : String
  releaseNotes : String
  deriving DecidableEq, Repr

structure StagedRollout (N : Type) where
  maxDelayHours : ℕ
  nodeIdHash : N

structure UpgradeMonitor (V N : Type) where
  stagedRollout : Option (StagedRollout N)
  pendingUpgradeDetected : Option ℕ
  pendingUpgradeVersion : Option V

/-- One call of `check_for_ready_upgrade`: what `check_for_updates` answers it, and its two reads
    of the clock. -/
structure Check (V ε : Type) where
  upgradeInfo : Except ε (Option (UpgradeInfo V))
  now : ℕ
  elapsedNow : ℕ
  ordered : now ≤ elapsedNow

/-! ## What a run of checks says -/

namespace Check

def Selects (v : V) (c : Check V ε) : Prop :=
  ∃ info, c.upgradeInfo = .ok (some info) ∧ info.version = v

def Errs (c : Check V ε) : Prop :=
  ∃ e, c.upgradeInfo = .error e

/-- A successful check selects `v`. -/
def Keeps (v : V) (c : Check V ε) : Prop :=
  ∀ upgradeInfo, c.upgradeInfo = .ok upgradeInfo → c.Selects v

end Check

/-- The checks are made at non-decreasing times. -/
def Timed (checks : List (Check V ε)) : Prop :=
  checks.Pairwise fun c d => c.elapsedNow ≤ d.now

/-- `v` has been selected for `k` at the time `now`: a check selected it at least `k` before, and
    each successful check since selects it. -/
def SelectedFor (v : V) (k now : ℕ) (checks : List (Check V ε)) : Prop :=
  Since (Check.Keeps v) (fun d => d.Selects v ∧ d.now + k ≤ now) checks

variable {c : Check V ε} {checks : List (Check V ε)} {info : UpgradeInfo V} {v : V}
  {k now t : ℕ}

theorem Check.Selects.keeps (h : c.Selects v) : c.Keeps v := fun _ _ => h

theorem Check.Selects.eq (h : c.Selects v) (hc : c.upgradeInfo = .ok (some info)) :
    info.version = v := by
  obtain ⟨info', hc', rfl⟩ := h
  rw [hc] at hc'
  obtain rfl : info = info' := by simpa using hc'
  rfl

theorem Check.Errs.keeps (h : c.Errs) : c.Keeps v := by
  intro upgradeInfo hc
  obtain ⟨e, he⟩ := h
  rw [he] at hc
  cases hc

theorem Check.Errs.not_selects (h : c.Errs) : ¬ c.Selects v := by
  rintro ⟨info, hc, -⟩
  obtain ⟨e, he⟩ := h
  rw [he] at hc
  cases hc

theorem timed_append_singleton :
    Timed (checks ++ [c]) ↔ Timed checks ∧ ∀ d ∈ checks, d.elapsedNow ≤ c.now := by
  simp [Timed, List.pairwise_append]

theorem selectedFor_append_singleton :
    SelectedFor v k now (checks ++ [c]) ↔
      (c.Selects v ∧ c.now + k ≤ now) ∨ c.Keeps v ∧ SelectedFor v k now checks :=
  since_append_singleton

/-! ## The monitor -/

namespace UpgradeMonitor

def new : UpgradeMonitor V N where
  stagedRollout := none
  pendingUpgradeDetected := none
  pendingUpgradeVersion := none

def withStagedRollout (m : UpgradeMonitor V N) (nodeIdHash : N) (maxDelayHours : ℕ) :
    UpgradeMonitor V N :=
  if maxDelayHours > 0 then { m with stagedRollout := some ⟨maxDelayHours, nodeIdHash⟩ } else m

end UpgradeMonitor

section Rollout

/- The share of the window that the hash of a node and a version stands for. -/
variable (delaySecs : ℕ → N → V → ℕ)

def StagedRollout.calculateDelayForVersion (r : StagedRollout N) (v : V) : ℕ :=
  if r.maxDelayHours = 0 then 0 else delaySecs r.maxDelayHours r.nodeIdHash v

namespace UpgradeMonitor

def checkForReadyUpgrade [DecidableEq V] (m : UpgradeMonitor V N) (c : Check V ε) :
    UpgradeMonitor V N × Except ε (Option (UpgradeInfo V)) :=
  match c.upgradeInfo with
  | .error e => (m, .error e)
  | .ok none =>
    ({ m with pendingUpgradeDetected := none, pendingUpgradeVersion := none }, .ok none)
  | .ok (some info) =>
    match m.stagedRollout with
    | none => (m, .ok (some info))
    | some rollout =>
      let isNewVersion := m.pendingUpgradeVersion.all fun v => decide (v ≠ info.version)
      let m := if isNewVersion then
        { m with
          pendingUpgradeDetected := some c.now
          pendingUpgradeVersion := some info.version } else m
      match m.pendingUpgradeDetected with
      -- the source calls this case impossible, and answers with the release
      | none => (m, .ok (some info))
      | some detectedAt =>
        let delay := rollout.calculateDelayForVersion delaySecs info.version
        let elapsed := c.elapsedNow - detectedAt
        if elapsed ≥ delay then (m, .ok (some info)) else (m, .ok none)

def timeUntilUpgrade (m : UpgradeMonitor V N) (now : ℕ) : Option ℕ := do
  let rollout ← m.stagedRollout
  let version ← m.pendingUpgradeVersion
  let detectedAt ← m.pendingUpgradeDetected
  let delay := rollout.calculateDelayForVersion delaySecs version
  let elapsed := now - detectedAt
  if elapsed ≥ delay then some 0 else some (delay - elapsed)

/-- How long the upgrade loop sleeps after a check that was not followed by a restart. -/
def sleepDuration (m : UpgradeMonitor V N) (now jitteredInterval : ℕ) : ℕ :=
  match m.timeUntilUpgrade delaySecs now with
  | none => jitteredInterval
  | some remaining => if remaining = 0 then jitteredInterval else remaining

/-- The monitor after some checks. -/
def after [DecidableEq V] (m : UpgradeMonitor V N) (checks : List (Check V ε)) :
    UpgradeMonitor V N :=
  checks.foldl (fun m c => (m.checkForReadyUpgrade delaySecs c).1) m

end UpgradeMonitor

end Rollout

variable {delaySecs : ℕ → N → V → ℕ} {m : UpgradeMonitor V N} {r : StagedRollout N}
  {hours : ℕ}

/-! ## The invariant -/

/-- What the pending record knows of the checks so far. -/
structure Tracks (r : StagedRollout N) (m : UpgradeMonitor V N) (checks : List (Check V ε)) :
    Prop where
  rollout : m.stagedRollout = some r
  both : m.pendingUpgradeVersion.isSome → m.pendingUpgradeDetected.isSome
  past : ∀ t, m.pendingUpgradeDetected = some t → ∃ d ∈ checks, t ≤ d.elapsedNow
  pending : ∀ v k now, (m.pendingUpgradeVersion = some v ∧
    ∃ t, m.pendingUpgradeDetected = some t ∧ t + k ≤ now) ↔ SelectedFor v k now checks

/-- The record of a fresh monitor. -/
theorem Tracks.new (h : 0 < hours) (id : N) : Tracks ⟨hours, id⟩
    ((UpgradeMonitor.new : UpgradeMonitor V N).withStagedRollout id hours)
    ([] : List (Check V ε)) := by
  simp only [UpgradeMonitor.withStagedRollout, gt_iff_lt, h, if_true]
  constructor <;> simp [UpgradeMonitor.new, SelectedFor]

theorem timeUntilUpgrade_eq_some (hr : m.stagedRollout = some r) :
    m.timeUntilUpgrade delaySecs now = some k ↔ ∃ v t, m.pendingUpgradeVersion = some v ∧
      m.pendingUpgradeDetected = some t ∧
      r.calculateDelayForVersion delaySecs v - (now - t) = k := by
  rw [UpgradeMonitor.timeUntilUpgrade, hr]
  rcases m.pendingUpgradeVersion with _ | v
  · simp
  rcases m.pendingUpgradeDetected with _ | t
  · simp
  simp only [Option.bind_eq_bind, Option.bind_some, Option.some.injEq, exists_eq_left',
    exists_and_left]
  split_ifs with hdelay
  · simp only [Option.some.injEq]
    omega
  · simp

theorem Tracks.timeUntilUpgrade_eq (delaySecs : ℕ → N → V → ℕ) (now : ℕ) (h : Tracks r m checks)
    (hv : m.pendingUpgradeVersion = some v) (ht : m.pendingUpgradeDetected = some t) :
    m.timeUntilUpgrade delaySecs now =
      some (r.calculateDelayForVersion delaySecs v - (now - t)) :=
  (timeUntilUpgrade_eq_some h.rollout).2 ⟨v, t, hv, ht, rfl⟩

variable [DecidableEq V]

/-! ## What one check does -/

namespace UpgradeMonitor

theorem checkForReadyUpgrade_errs (h : c.Errs) : (m.checkForReadyUpgrade delaySecs c).1 = m := by
  obtain ⟨e, he⟩ := h
  simp [checkForReadyUpgrade, he]

theorem checkForReadyUpgrade_none (h : c.upgradeInfo = .ok none) :
    (m.checkForReadyUpgrade delaySecs c).1 =
      { m with pendingUpgradeDetected := none, pendingUpgradeVersion := none } := by
  simp [checkForReadyUpgrade, h]

/-- What a selected release does: the wait runs on if it was pending, and starts now otherwise. -/
theorem checkForReadyUpgrade_select (delaySecs : ℕ → N → V → ℕ) (hr : m.stagedRollout = some r)
    (hboth : m.pendingUpgradeVersion.isSome → m.pendingUpgradeDetected.isSome)
    (hc : c.upgradeInfo = .ok (some info)) :
    ∃ t, (m.pendingUpgradeVersion = some info.version ∧ m.pendingUpgradeDetected = some t ∨
        m.pendingUpgradeVersion ≠ some info.version ∧ t = c.now) ∧
      m.checkForReadyUpgrade delaySecs c =
        ({ m with pendingUpgradeDetected := some t, pendingUpgradeVersion := some info.version },
          .ok (if c.elapsedNow - t ≥ r.calculateDelayForVersion delaySecs info.version
            then some info else none)) := by
  by_cases hv : m.pendingUpgradeVersion = some info.version
  · obtain ⟨t, ht⟩ := Option.isSome_iff_exists.1 (hboth (by simp [hv]))
    refine ⟨t, Or.inl ⟨hv, ht⟩, ?_⟩
    obtain ⟨_, _, _⟩ := m
    subst hr hv ht
    simp only [checkForReadyUpgrade, hc, Option.all_some, ne_eq, not_true_eq_false, decide_false,
      Bool.false_eq_true, if_false]
    split_ifs <;> rfl
  · refine ⟨c.now, Or.inr ⟨hv, rfl⟩, ?_⟩
    have hnew : m.pendingUpgradeVersion.all (fun v => decide (v ≠ info.version)) = true := by
      cases h : m.pendingUpgradeVersion with
      | none => rfl
      | some v => rw [h] at hv; simpa using hv
    simp only [checkForReadyUpgrade, hc, hr, hnew, if_true]
    split_ifs <;> rfl

theorem after_append_singleton :
    m.after delaySecs (checks ++ [c]) =
      ((m.after delaySecs checks).checkForReadyUpgrade delaySecs c).1 := by
  simp [after]

end UpgradeMonitor

/-- **A check keeps the record true.** -/
theorem Tracks.step (delaySecs : ℕ → N → V → ℕ) (h : Tracks r m checks)
    (hc : ∀ d ∈ checks, d.elapsedNow ≤ c.now) :
    Tracks r (m.checkForReadyUpgrade delaySecs c).1 (checks ++ [c]) := by
  rcases hu : c.upgradeInfo with e | _ | info
  · have he : c.Errs := ⟨e, hu⟩
    rw [UpgradeMonitor.checkForReadyUpgrade_errs he]
    refine ⟨h.rollout, h.both, ?_, ?_⟩
    · intro t ht
      obtain ⟨d, hd, htd⟩ := h.past t ht
      exact ⟨d, List.mem_append_left _ hd, htd⟩
    · intro v k now
      rw [selectedFor_append_singleton, h.pending]
      simp [he.keeps, he.not_selects]
  · rw [UpgradeMonitor.checkForReadyUpgrade_none hu]
    refine ⟨h.rollout, by simp, by simp, ?_⟩
    intro v k now
    have hnot : ¬ c.Selects v := by
      rintro ⟨info, hc, -⟩
      rw [hu] at hc
      cases hc
    rw [selectedFor_append_singleton]
    simp only [reduceCtorEq, false_and, false_iff, not_or, not_and]
    exact ⟨fun hs => absurd hs hnot, fun hk => absurd (hk _ hu) hnot⟩
  · obtain ⟨t, ht, heq⟩ :=
      UpgradeMonitor.checkForReadyUpgrade_select delaySecs h.rollout h.both hu
    rw [heq]
    have hsel : ∀ v, c.Selects v ↔ info.version = v :=
      fun v => ⟨fun hs => hs.eq hu, fun hv => ⟨info, hu, hv⟩⟩
    have hkeeps : ∀ v, c.Keeps v ↔ info.version = v :=
      fun v => ⟨fun hk => (hsel v).1 (hk _ hu), fun hv _ _ => (hsel v).2 hv⟩
    have hle : t ≤ c.now := by
      rcases ht with ⟨-, ht⟩ | ⟨-, rfl⟩
      · obtain ⟨d, hd, htd⟩ := h.past t ht
        exact htd.trans (hc d hd)
      · exact le_rfl
    refine ⟨h.rollout, by simp, ?_, ?_⟩
    · intro t' ht'
      obtain rfl : t = t' := by simpa using ht'
      exact ⟨c, by simp, hle.trans c.ordered⟩
    · intro v k now
      rw [selectedFor_append_singleton, hsel, hkeeps, ← h.pending]
      by_cases hv : info.version = v
      · subst hv
        simp only [Option.some.injEq, true_and, exists_eq_left']
        rcases ht with ⟨hpv, hpt⟩ | ⟨hpv, rfl⟩
        · simp only [hpv, hpt, Option.some.injEq, true_and, exists_eq_left']
          omega
        · simp [hpv]
      · simp [hv]

/-- **The record is true after every run of checks.** -/
theorem Tracks.after (h : Tracks r m ([] : List (Check V ε))) (ht : Timed checks) :
    Tracks r (m.after delaySecs checks) checks := by
  induction checks using List.reverseRecOn with
  | nil => exact h
  | append_singleton checks c ih =>
    rw [timed_append_singleton] at ht
    rw [UpgradeMonitor.after_append_singleton]
    exact (ih ht.1).step delaySecs ht.2

/-! ## The rollout is respected -/

/-- What a check returns, by the record. -/
theorem Tracks.returns_iff (h : Tracks r m checks) (hc : ∀ d ∈ checks, d.elapsedNow ≤ c.now) :
    (m.checkForReadyUpgrade delaySecs c).2 = .ok (some info) ↔
      c.upgradeInfo = .ok (some info) ∧
      SelectedFor info.version (r.calculateDelayForVersion delaySecs info.version) c.elapsedNow
        (checks ++ [c]) := by
  rcases hu : c.upgradeInfo with e | _ | info'
  · simp [UpgradeMonitor.checkForReadyUpgrade, hu]
  · simp [UpgradeMonitor.checkForReadyUpgrade, hu]
  · obtain ⟨t, -, heq⟩ :=
      UpgradeMonitor.checkForReadyUpgrade_select delaySecs h.rollout h.both hu
    have hstep := h.step delaySecs hc
    rw [heq] at hstep ⊢
    obtain ⟨d, hd, htd⟩ := hstep.past t rfl
    have hte : t ≤ c.elapsedNow := by
      rcases List.mem_append.1 hd with hd | hd
      · exact htd.trans ((hc d hd).trans c.ordered)
      · rwa [List.mem_singleton.1 hd] at htd
    have hpending := hstep.pending info'.version
      (r.calculateDelayForVersion delaySecs info'.version) c.elapsedNow
    simp only [true_and, Option.some.injEq, exists_eq_left'] at hpending
    by_cases hdelay : c.elapsedNow - t ≥ r.calculateDelayForVersion delaySecs info'.version
    · simp only [hdelay, if_true, Except.ok.injEq, Option.some.injEq]
      refine ⟨?_, fun h => h.1⟩
      rintro rfl
      exact ⟨rfl, hpending.1 (by omega)⟩
    · simp only [hdelay, if_false, Except.ok.injEq, reduceCtorEq, Option.some.injEq, false_iff]
      rintro ⟨rfl, hsel⟩
      exact hdelay (by have := hpending.2 hsel; omega)

/-- Checks that err leave the record as it is. -/
theorem UpgradeMonitor.after_errs (h : ∀ c ∈ checks, c.Errs) : m.after delaySecs checks = m := by
  induction checks using List.reverseRecOn with
  | nil => rfl
  | append_singleton checks c ih =>
    rw [after_append_singleton, ih fun d hd => h d (by simp [hd]),
      checkForReadyUpgrade_errs (h c (by simp))]

/-- A check that still selects the pending version returns it once the remaining time is over, and
    not before. -/
theorem Tracks.returns_pending_iff (h : Tracks r m checks) (hnow : ∀ d ∈ checks, d.elapsedNow ≤ now)
    (hremaining : m.timeUntilUpgrade delaySecs now = some k) (hle : now ≤ c.now)
    (hc : c.upgradeInfo = .ok (some info)) (hv : m.pendingUpgradeVersion = some info.version) :
    (m.checkForReadyUpgrade delaySecs c).2 = .ok (some info) ↔ now + k ≤ c.elapsedNow := by
  obtain ⟨v, t, hpv, hpt, hk⟩ := (timeUntilUpgrade_eq_some h.rollout).1 hremaining
  obtain rfl : v = info.version := Option.some.inj (hpv ▸ hv)
  obtain ⟨t', ht', heq⟩ :=
    UpgradeMonitor.checkForReadyUpgrade_select delaySecs h.rollout h.both hc
  obtain ⟨d, hd, htd⟩ := h.past t hpt
  have htnow : t ≤ now := htd.trans (hnow d hd)
  have hordered := c.ordered
  rcases ht' with ⟨-, ht'⟩ | ⟨hne, -⟩
  · obtain rfl : t = t' := Option.some.inj (hpt ▸ ht')
    rw [heq]
    by_cases hdelay : c.elapsedNow - t ≥ r.calculateDelayForVersion delaySecs info.version
    · simp only [hdelay, if_true, true_iff]
      omega
    · simp only [hdelay, if_false, Except.ok.injEq, reduceCtorEq, false_iff]
      omega
  · exact absurd hv hne

/-- The loop's next check after its sleep returns the pending release, if it still selects it. -/
theorem Tracks.returns_after_sleep {jittered : ℕ} (h : Tracks r m checks)
    (hnow : ∀ d ∈ checks, d.elapsedNow ≤ now)
    (hle : now + m.sleepDuration delaySecs now jittered ≤ c.now)
    (hc : c.upgradeInfo = .ok (some info)) (hv : m.pendingUpgradeVersion = some info.version) :
    (m.checkForReadyUpgrade delaySecs c).2 = .ok (some info) := by
  obtain ⟨t, hpt⟩ := Option.isSome_iff_exists.1 (h.both (by simp [hv]))
  have hremaining := h.timeUntilUpgrade_eq delaySecs now hv hpt
  refine (h.returns_pending_iff hnow hremaining (by omega) hc hv).2 ?_
  have hordered := c.ordered
  simp only [UpgradeMonitor.sleepDuration, hremaining] at hle
  split_ifs at hle <;> omega

/-- **Staged rollout is respected.** After any run of checks, a check returns a release if and only
    if it selects it and the release has been selected for its delay; and the time until the upgrade
    is zero exactly when the next check that still selects the pending version returns it. -/
theorem rollout_respected (delaySecs : ℕ → N → V → ℕ) (hhours : 0 < hours) (id : N)
    (past : List (Check V ε)) (hpast : Timed past) :
    let r : StagedRollout N := ⟨hours, id⟩
    let m := ((UpgradeMonitor.new : UpgradeMonitor V N).withStagedRollout id hours).after
      delaySecs past
    (∀ (c : Check V ε) info, Timed (past ++ [c]) →
      ((m.checkForReadyUpgrade delaySecs c).2 = .ok (some info) ↔
        c.upgradeInfo = .ok (some info) ∧
        SelectedFor info.version (r.calculateDelayForVersion delaySecs info.version) c.elapsedNow
          (past ++ [c]))) ∧
    ∀ now, (∀ d ∈ past, d.elapsedNow ≤ now) →
      (m.timeUntilUpgrade delaySecs now = some 0 ↔
        ∃ v, m.pendingUpgradeVersion = some v ∧ ∀ (errs : List (Check V ε)) (c : Check V ε) info,
          (∀ e ∈ errs, e.Errs) → now ≤ c.now → c.upgradeInfo = .ok (some info) →
          info.version = v →
          ((m.after delaySecs errs).checkForReadyUpgrade delaySecs c).2 = .ok (some info)) := by
  intro r m
  have h : Tracks r m past := (Tracks.new hhours id).after hpast
  refine ⟨fun c info hc => h.returns_iff (timed_append_singleton.1 hc).2, fun now hnow => ?_⟩
  constructor
  · intro hzero
    obtain ⟨v, t, hpv, -⟩ := (timeUntilUpgrade_eq_some h.rollout).1 hzero
    refine ⟨v, hpv, ?_⟩
    rintro errs c info herrs hle hc rfl
    rw [UpgradeMonitor.after_errs herrs]
    exact (h.returns_pending_iff hnow hzero hle hc hpv).2 (hle.trans c.ordered)
  · rintro ⟨v, hpv, hnext⟩
    obtain ⟨t, hpt⟩ := Option.isSome_iff_exists.1 (h.both (by simp [hpv]))
    have hremaining := h.timeUntilUpgrade_eq delaySecs now hpv hpt
    -- the next check, at this very moment
    let info : UpgradeInfo V := ⟨v, "", "", ""⟩
    let c : Check V ε := ⟨.ok (some info), now, now, le_rfl⟩
    have hret := hnext [] c info (by simp) le_rfl rfl rfl
    have hle := (h.returns_pending_iff (c := c) hnow hremaining le_rfl rfl hpv).1 hret
    rw [hremaining, show r.calculateDelayForVersion delaySecs v - (now - t) = 0 by
      have : c.elapsedNow = now := rfl
      omega]

/-- The release is selected at 0, a check fails, and the check at 7 returns it. -/
theorem rollout_respected_seven :
    let info : UpgradeInfo ℕ := ⟨2, "url", "sig", "notes"⟩
    let past : List (Check ℕ String) :=
      [⟨.ok (some info), 0, 1, by decide⟩, ⟨.error "network", 3, 3, by decide⟩]
    let m := ((UpgradeMonitor.new : UpgradeMonitor ℕ ℕ).withStagedRollout 5 24).after
      (fun _ id v => id + v) past
    (m.checkForReadyUpgrade (fun _ id v => id + v)
      (⟨.ok (some info), 7, 7, by decide⟩ : Check ℕ String)).2 = .ok (some info) ∧
    m.timeUntilUpgrade (fun _ id v => id + v) 7 = some 0 := by
  intro info past m
  have h := rollout_respected (fun _ id v => id + v) (by decide : 0 < 24) 5 past
    (by simp [past, Timed])
  refine ⟨(h.1 _ info (by simp [past, Timed])).2 ⟨rfl, ?_⟩, ?_⟩
  · refine ⟨[], _, _, rfl, ⟨⟨info, rfl, rfl⟩, by decide⟩, ?_⟩
    intro d hd
    rcases List.mem_cons.1 hd with rfl | hd
    · exact Check.Errs.keeps ⟨"network", rfl⟩
    · rw [List.mem_singleton.1 hd]
      exact Check.Selects.keeps ⟨info, rfl, rfl⟩
  · refine (h.2 7 (by simp [past])).2 ⟨2, rfl, ?_⟩
    rintro errs c info' herrs hle hc hv
    rw [UpgradeMonitor.after_errs herrs]
    have htracks : Tracks ⟨24, 5⟩ m past := (Tracks.new (by decide) 5).after (by simp [past, Timed])
    have hzero : m.timeUntilUpgrade (fun _ id v => id + v) 7 = some 0 := rfl
    exact (htracks.returns_pending_iff (by simp [past]) hzero hle hc (by rw [hv]; rfl)).2
      (hle.trans c.ordered)

end Autonomi.Upgrade
