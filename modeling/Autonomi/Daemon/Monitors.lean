/-
  What holds of the entries, the processes and the monitors of the supervisor, and how the
  monitors keep it.
-/
import Autonomi.Daemon.Tasks

namespace Autonomi.Daemon

open Lib

/-! ## What the supervisor does to one entry -/

namespace Supervisor

variable {sup : Supervisor} {nodeId id pid now : ℕ} {state : NodeRuntime}

theorem isRunning_iff :
    sup.isRunning nodeId = true ↔
      ∃ state, sup.nodeStates nodeId = some state ∧ state.status = .running := by
  simp [isRunning, Option.any_eq_true]

theorem startNode_running (h : sup.isRunning nodeId = false) :
    (sup.startNode nodeId (.running pid) now).1 = sup.insert nodeId (.running pid now) := by
  simp [startNode, h]

theorem startNode_exited (h : sup.isRunning nodeId = false) (detail : String) :
    (sup.startNode nodeId (.exited detail) now).1 = sup.insert nodeId .errored := by
  simp [startNode, h]

theorem beginStop_eq_ok {sup' : Supervisor} {stopped : Option ℕ}
    (h : sup.beginStop nodeId = .ok (sup', stopped)) :
    ∃ state, sup.nodeStates nodeId = some state ∧ state.status = .running ∧
      sup' = sup.insert nodeId { state with status := .stopping } ∧ stopped = state.pid := by
  rw [beginStop] at h
  split at h
  · cases h
  · split_ifs at h with hstatus
    cases h
    exact ⟨_, by assumption, not_not.1 hstatus, rfl, rfl⟩

/-- The supervisor takes the node to have a process. -/
def Occupied (sup : Supervisor) (nodeId : ℕ) (state : NodeRuntime) : Prop :=
  sup.nodeStates nodeId = some state ∧ (state.status = .running ∨ state.status = .stopping)

theorem occupied_insert_iff {state' : NodeRuntime} :
    (sup.insert nodeId state).Occupied id state' ↔
      id = nodeId ∧ state' = state ∧ (state.status = .running ∨ state.status = .stopping) ∨
        id ≠ nodeId ∧ sup.Occupied id state' := by
  by_cases hid : id = nodeId
  · subst hid
    simp only [Occupied, insert_self, Option.some.injEq, true_and, ne_eq, not_true_eq_false,
      false_and, or_false]
    constructor
    · rintro ⟨rfl, h⟩
      exact ⟨rfl, h⟩
    · rintro ⟨rfl, h⟩
      exact ⟨rfl, h⟩
  · simp [Occupied, insert_of_ne _ _ hid, hid]

theorem Occupied.congr {sup' : Supervisor} (h : sup.Occupied nodeId state)
    (heq : sup'.nodeStates nodeId = sup.nodeStates nodeId) : sup'.Occupied nodeId state :=
  ⟨heq.trans h.1, h.2⟩

theorem updateState_of_ne {status : NodeStatus} {pid : Option ℕ} (h : id ≠ nodeId) :
    (sup.updateState nodeId status pid now).nodeStates id = sup.nodeStates id := by
  rw [updateState]
  split
  · rfl
  · exact insert_of_ne _ _ h

/-- The node has no process any more. -/
theorem not_occupied_updateState {status : NodeStatus} {pid : Option ℕ}
    (hstatus : ¬ (status = .running ∨ status = .stopping)) :
    ¬ (sup.updateState nodeId status pid now).Occupied nodeId state := by
  rw [updateState]
  split
  · rename_i hnone
    rintro ⟨hstate, -⟩
    rw [hnone] at hstate
    cases hstate
  · rw [occupied_insert_iff]
    rintro (⟨-, -, h⟩ | ⟨hne, -⟩)
    · exact hstatus h
    · exact hne rfl

theorem updateState_eq_insert (status : NodeStatus) (pid : Option ℕ) (now : ℕ)
    (h : sup.nodeStates nodeId = some state) :
    sup.updateState nodeId status pid now = sup.insert nodeId { state with
      status := status
      pid := pid
      startedAt := if status = .running then some now else state.startedAt } := by
  rw [updateState, h]

theorem recordCrash_of_ne (h : id ≠ nodeId) :
    (sup.recordCrash nodeId now).1.nodeStates id = sup.nodeStates id := by
  rw [recordCrash]
  split
  · rfl
  · simp only
    split_ifs <;> exact insert_of_ne _ _ h

/-- A crash of a running node: either there have been too many, or the entry still says that it
    runs, under the pid that it had. -/
theorem recordCrash_running (now : ℕ) (hstate : sup.nodeStates nodeId = some state)
    (hrunning : state.status = .running) :
    (sup.recordCrash nodeId now).2.1 = false ∧
        (∀ state', ¬ (sup.recordCrash nodeId now).1.Occupied nodeId state') ∨
      (sup.recordCrash nodeId now).2.1 = true ∧
        ∃ state', (sup.recordCrash nodeId now).1.nodeStates nodeId = some state' ∧
          state'.status = .running ∧ state'.pid = state.pid := by
  have hkept : ((state.resetIfStable now).countCrash now).status = state.status ∧
      ((state.resetIfStable now).countCrash now).pid = state.pid := by
    unfold NodeRuntime.resetIfStable
    split
    · split_ifs <;> exact ⟨rfl, rfl⟩
    · exact ⟨rfl, rfl⟩
  rw [recordCrash, hstate]
  simp only
  split_ifs
  · refine .inl ⟨rfl, fun state' hocc => ?_⟩
    rcases occupied_insert_iff.1 hocc with ⟨-, -, h⟩ | ⟨hne, -⟩
    · rcases h with h | h <;> cases h
    · exact hne rfl
  · exact .inr ⟨rfl, _, insert_self _ _ _, hkept.1.trans hrunning, hkept.2⟩

end Supervisor

/-! ## Exclusivity -/

namespace MonitorPhase

/-- The process that the monitor is concerned with. -/
def pid : MonitorPhase → Option ℕ
  | .waiting pid | .observed pid _ | .cleanExit pid | .crashed pid => some pid
  | .spawned pid => pid
  | .sleeping _ => none

/-- The process has exited, and its exit is not recorded. -/
def Exited : MonitorPhase → Prop
  | .observed _ _ | .cleanExit _ | .crashed _ => True
  | .waiting _ | .sleeping _ | .spawned _ => False

/-- The crash of the process is recorded, and the one that takes its place is not. -/
def Restarting : MonitorPhase → Prop
  | .sleeping _ | .spawned _ => True
  | .waiting _ | .observed _ _ | .cleanExit _ | .crashed _ => False

end MonitorPhase

namespace Tasks

/-- A node has at most one live process, and none after it has been stopped. -/
structure Alone (s : Tasks) : Prop where
  one : ∀ p q P Q, s.procs p = some P → s.procs q = some Q → P.Live → Q.Live →
    P.nodeId = Q.nodeId → p = q
  stopped : ∀ p P, s.procs p = some P → P.Live → s.stopped P.nodeId = false

/-- **Exclusivity.** A node has at most one live process, none after it has been stopped, and a
    running entry has the pid of a process that is alive or whose exit is not recorded. -/
structure Exclusive (s : Tasks) : Prop extends Alone s where
  pid : ∀ nodeId state, s.sup.nodeStates nodeId = some state → state.status = .running →
    ∃ p P, state.pid = some p ∧ s.procs p = some P ∧ P.nodeId = nodeId ∧
      (P.Live ∨ s.recorded p = false)

def Gone (s : Tasks) (pid : ℕ) : Prop := ∀ P ∈ s.procs pid, ¬ P.Live

instance (s : Tasks) (pid : ℕ) : Decidable (s.Gone pid) :=
  inferInstanceAs (Decidable (∀ P ∈ s.procs pid, ¬ P.Live))

/-- No monitor records a crash, none records a clean exit in a running entry with another pid, and
    what is killed, or cannot be waited for, is gone. -/
def Careful (s : Tasks) : TaskAction → Prop
  | .startDone .failed _ | .stopDone => ∀ w ∈ s.writer, ∀ pid ∈ w.pid, s.Gone pid
  | .recordClean m _ => ∀ monitor ∈ s.monitors m, s.sup.isRunning monitor.nodeId = true →
    (s.sup.nodePid monitor.nodeId).map .cleanExit = some monitor.phase
  | .recordCrash _ _ => False
  | _ => True

instance (s : Tasks) : ∀ a, Decidable (s.Careful a)
  | .startDone .failed _ | .stopDone =>
    inferInstanceAs (Decidable (∀ w ∈ s.writer, ∀ pid ∈ w.pid, s.Gone pid))
  | .recordClean m _ => inferInstanceAs (Decidable (∀ monitor ∈ s.monitors m,
      s.sup.isRunning monitor.nodeId = true →
        (s.sup.nodePid monitor.nodeId).map .cleanExit = some monitor.phase))
  | .recordCrash _ _ => .isFalse id
  | .startNode _ | .startSpawned _ | .startDone .exited _ | .startDone .timeout _ | .stopNode _
  | .stopKill _ | .exit _ _ | .observe _ | .check _ | .respawn _ _ | .recordRestart _ _ =>
    .isTrue trivial

/-- The node has a monitor that is about to restart it. -/
def Backoff (s : Tasks) (nodeId : ℕ) : Prop :=
  ∃ m monitor, s.monitors m = some monitor ∧ monitor.nodeId = nodeId ∧ monitor.phase.Restarting

/-- Monitors record crashes too, in a running entry with the pid of the process, and no node is
    stopped in its backoff. -/
def Patient (s : Tasks) : TaskAction → Prop
  | .startDone .failed _ | .stopDone => ∀ w ∈ s.writer, ∀ pid ∈ w.pid, s.Gone pid
  | .recordClean m _ => ∀ monitor ∈ s.monitors m, s.sup.isRunning monitor.nodeId = true →
    (s.sup.nodePid monitor.nodeId).map .cleanExit = some monitor.phase
  | .recordCrash m _ => ∀ monitor ∈ s.monitors m, s.sup.isRunning monitor.nodeId = true ∧
    (s.sup.nodePid monitor.nodeId).map .crashed = some monitor.phase
  | .stopNode nodeId => ¬ s.Backoff nodeId
  | _ => True

/-! ## The invariant -/

/-- The monitor has a process of its node whose exit is not recorded. -/
def Owns (s : Tasks) (monitor : Monitor) (p : ℕ) : Prop :=
  s.recorded p = false ∧ ∃ P, s.procs p = some P ∧ P.nodeId = monitor.nodeId ∧
    (monitor.phase.Exited → ¬ P.Live)

/-- Two monitors share neither a process nor the restart of a node. -/
def Apart (monitor monitor' : Monitor) : Prop :=
  (∀ p, monitor.phase.pid = some p → monitor'.phase.pid ≠ some p) ∧
    (monitor.phase.Restarting → monitor'.phase.Restarting → monitor.nodeId ≠ monitor'.nodeId)

theorem Apart.symm {monitor monitor' : Monitor} (h : Apart monitor monitor') :
    Apart monitor' monitor :=
  ⟨fun p hp hp' => h.1 p hp' hp, fun hr hr' => (h.2 hr' hr).symm⟩

structure Inv (s : Tasks) : Prop where
  live : ∀ p P, s.procs p = some P → P.Live → s.writer = some (.starting P.nodeId (some p)) ∨
    (∃ state, s.sup.Occupied P.nodeId state ∧ state.pid = some p) ∨
    ∃ m, s.monitors m = some ⟨P.nodeId, .spawned (some p)⟩
  starting : ∀ nodeId pid, s.writer = some (.starting nodeId pid) →
    (∀ state, ¬ s.sup.Occupied nodeId state) ∧ s.stopped nodeId = false ∧
      ∀ p ∈ pid, s.recorded p = false ∧ (∃ P, s.procs p = some P ∧ P.nodeId = nodeId) ∧
        ∀ m monitor, s.monitors m = some monitor → m ≠ p ∧ monitor.phase.pid ≠ some p
  stopping : ∀ nodeId pid, s.writer = some (.stopping nodeId pid) →
    ∃ state, s.sup.nodeStates nodeId = some state ∧ state.status = .stopping ∧ state.pid = pid
  stops : ∀ nodeId state, s.sup.nodeStates nodeId = some state → state.status = .stopping →
    s.writer = some (.stopping nodeId state.pid)
  occupied : ∀ nodeId state, s.sup.Occupied nodeId state → s.stopped nodeId = false ∧
    ∃ p P, state.pid = some p ∧ s.procs p = some P ∧ P.nodeId = nodeId ∧
      (s.recorded p = false ∨ s.Backoff nodeId)
  monitors : ∀ m monitor, s.monitors m = some monitor →
    (∃ P, s.procs m = some P) ∧ ∀ p, monitor.phase.pid = some p → s.Owns monitor p
  apart : ∀ m m' monitor monitor', m ≠ m' → s.monitors m = some monitor →
    s.monitors m' = some monitor' → Apart monitor monitor'
  backoff : ∀ nodeId, s.Backoff nodeId → ∃ state p, s.sup.nodeStates nodeId = some state ∧
    state.status = .running ∧ state.pid = some p ∧ s.recorded p = true
  recorded : ∀ p, s.recorded p = true → ∃ P, s.procs p = some P ∧ ¬ P.Live

variable {s s' : Tasks} {nodeId pid m now : ℕ} {exitCode : Option ℤ} {phase : MonitorPhase}

/-- In a backoff the process of the entry is dead. -/
theorem Inv.dead_of_backoff (h : Inv s) (hb : s.Backoff nodeId) {state : NodeRuntime} {p : ℕ}
    (hocc : s.sup.Occupied nodeId state) (hp : state.pid = some p) {P : Process}
    (hP : s.procs p = some P) : ¬ P.Live := by
  obtain ⟨state', p', hstate', -, hp', hrec⟩ := h.backoff nodeId hb
  obtain rfl : state = state' := Option.some.inj (hocc.1.symm.trans hstate')
  obtain rfl : p = p' := Option.some.inj (hp.symm.trans hp')
  obtain ⟨P', hP', hdead⟩ := h.recorded p hrec
  obtain rfl : P = P' := Option.some.inj (hP.symm.trans hP')
  exact hdead

theorem Inv.occupied_of_backoff (h : Inv s) (hb : s.Backoff nodeId) :
    ∃ state, s.sup.Occupied nodeId state := by
  obtain ⟨state, -, hstate, hrunning, -, -⟩ := h.backoff nodeId hb
  exact ⟨state, hstate, .inl hrunning⟩

theorem Inv.alone (h : Inv s) : Alone s := by
  constructor
  · intro p q P Q hp hq hP hQ heq
    rcases h.live p P hp hP with hw | ⟨state, hocc, hpid⟩ | ⟨m, hm⟩
    · have hfree := (h.starting _ _ hw).1
      rcases h.live q Q hq hQ with hw' | ⟨state', hocc', -⟩ | ⟨m', hm'⟩
      · rw [hw] at hw'
        simp only [Option.some.injEq, Writer.starting.injEq] at hw'
        exact hw'.2
      · exact absurd (heq ▸ hocc') (hfree state')
      · obtain ⟨state', hocc'⟩ := h.occupied_of_backoff ⟨m', _, hm', heq.symm, trivial⟩
        exact absurd hocc' (hfree state')
    · rcases h.live q Q hq hQ with hw' | ⟨state', hocc', hpid'⟩ | ⟨m', hm'⟩
      · exact absurd (heq ▸ hocc) ((h.starting _ _ hw').1 state)
      · rw [← heq] at hocc'
        obtain rfl : state = state' := Option.some.inj (hocc.1.symm.trans hocc'.1)
        exact Option.some.inj (hpid.symm.trans hpid')
      · exact absurd hP (h.dead_of_backoff ⟨m', _, hm', heq.symm, trivial⟩ hocc hpid hp)
    · rcases h.live q Q hq hQ with hw' | ⟨state', hocc', hpid'⟩ | ⟨m', hm'⟩
      · obtain ⟨state, hocc⟩ := h.occupied_of_backoff ⟨m, _, hm, heq, trivial⟩
        exact absurd hocc ((h.starting _ _ hw').1 state)
      · exact absurd hQ (h.dead_of_backoff ⟨m, _, hm, heq, trivial⟩ hocc' hpid' hq)
      · by_cases hmm : m = m'
        · subst hmm
          have heq := hm.symm.trans hm'
          simp only [Option.some.injEq, Monitor.mk.injEq, MonitorPhase.spawned.injEq] at heq
          exact heq.2
        · exact absurd heq ((h.apart m m' _ _ hmm hm hm').2 trivial trivial)
  · intro p P hp hP
    rcases h.live p P hp hP with hw | ⟨state, hocc, -⟩ | ⟨m, hm⟩
    · exact (h.starting _ _ hw).2.1
    · exact (h.occupied _ state hocc).1
    · obtain ⟨state, hocc⟩ := h.occupied_of_backoff ⟨m, _, hm, rfl, trivial⟩
      exact (h.occupied _ state hocc).1

theorem Inv.exclusive (h : Inv s) (hcalm : ∀ nodeId, ¬ s.Backoff nodeId) : Exclusive s := by
  refine ⟨h.alone, fun nodeId state hstate hrunning => ?_⟩
  obtain ⟨-, p, P, hpid, hP, hnode, hrec⟩ := h.occupied nodeId state ⟨hstate, .inl hrunning⟩
  exact ⟨p, P, hpid, hP, hnode, .inr (hrec.resolve_right (hcalm nodeId))⟩

theorem inv_initial : Inv initial := by
  constructor <;> simp [initial, Supervisor.new, Supervisor.Occupied, Backoff]

/-- Without the lock taken no entry is in the course of being stopped. -/
theorem Inv.running (h : Inv s) (hw : s.writer = none) {state : NodeRuntime}
    (hocc : s.sup.Occupied nodeId state) : state.status = .running := by
  rcases hocc.2 with hrunning | hstopping
  · exact hrunning
  · have := h.stops nodeId state hocc.1 hstopping
    rw [hw] at this
    cases this

/-- While a node is started none is stopped. -/
theorem Inv.not_stopping (h : Inv s) (hw : ∀ nodeId pid, s.writer ≠ some (.stopping nodeId pid))
    {state : NodeRuntime} (hstate : s.sup.nodeStates nodeId = some state) :
    state.status ≠ .stopping :=
  fun hstopping => hw _ _ (h.stops nodeId state hstate hstopping)

/-! ## The monitors -/

theorem setMonitor_eq_some {monitor : Option Monitor} {m' : ℕ} {monitor' : Monitor}
    (h : (s.setMonitor m monitor).monitors m' = some monitor') :
    m' = m ∧ monitor = some monitor' ∨ m' ≠ m ∧ s.monitors m' = some monitor' := by
  by_cases hm : m' = m
  · subst hm
    rw [monitors_setMonitor_self] at h
    exact .inl ⟨rfl, h⟩
  · rw [monitors_setMonitor_of_ne _ hm] at h
    exact .inr ⟨hm, h⟩

/-- A backoff is not ended by what another monitor does. -/
theorem Backoff.setMonitor {monitor : Option Monitor} (h : s.Backoff nodeId)
    (hm : ∀ monitor', s.monitors m = some monitor' → monitor'.nodeId = nodeId →
      monitor'.phase.Restarting → ∃ monitor'' ∈ monitor, monitor''.nodeId = nodeId ∧
        monitor''.phase.Restarting) : (s.setMonitor m monitor).Backoff nodeId := by
  obtain ⟨m', monitor', hm', hnode, hphase⟩ := h
  by_cases heq : m' = m
  · subst heq
    obtain ⟨monitor'', rfl, hnode, hphase⟩ := hm monitor' hm' hnode hphase
    exact ⟨m', monitor'', monitors_setMonitor_self .., hnode, hphase⟩
  · exact ⟨m', monitor', (monitors_setMonitor_of_ne _ heq).trans hm', hnode, hphase⟩

/-- What a monitor comes to is apart from the others. -/
theorem Inv.apart_setMonitor {monitor : Option Monitor} (h : Inv s)
    (hapart : ∀ b ∈ monitor, ∀ m' monitor', m' ≠ m → s.monitors m' = some monitor' →
      Apart b monitor') {m₁ m₂ : ℕ} {b₁ b₂ : Monitor} (hne : m₁ ≠ m₂)
    (h₁ : (s.setMonitor m monitor).monitors m₁ = some b₁)
    (h₂ : (s.setMonitor m monitor).monitors m₂ = some b₂) : Apart b₁ b₂ := by
  rcases setMonitor_eq_some h₁ with ⟨rfl, rfl⟩ | ⟨hne₁, hold₁⟩
  · rw [monitors_setMonitor_of_ne _ hne.symm] at h₂
    exact hapart b₁ rfl m₂ b₂ hne.symm h₂
  · rcases setMonitor_eq_some h₂ with ⟨rfl, rfl⟩ | ⟨-, hold₂⟩
    · exact (hapart b₂ rfl m₁ b₁ hne₁ hold₁).symm
    · exact h.apart m₁ m₂ b₁ b₂ hne hold₁ hold₂

/-- A monitor goes on without a change of the entry of its node. -/
theorem Inv.advance {phase' : MonitorPhase} (h : Inv s)
    (hm : s.monitors m = some ⟨nodeId, phase⟩)
    (hpid : ∀ p, phase'.pid = some p → phase.pid = some p)
    (hexited : phase'.Exited → ∀ p P, phase'.pid = some p → s.procs p = some P → ¬ P.Live)
    (hrestarting : phase'.Restarting ↔ phase.Restarting)
    (hspawned : ∀ p, phase ≠ .spawned (some p)) : Inv (s.setMonitor m (some ⟨nodeId, phase'⟩)) := by
  obtain ⟨hkey, howns⟩ := h.monitors m _ hm
  have hbackoff : ∀ id, s.Backoff id ↔ (s.setMonitor m (some ⟨nodeId, phase'⟩)).Backoff id := by
    intro id
    constructor
    · intro hb
      refine hb.setMonitor fun monitor' hm' hnode hphase => ?_
      obtain rfl := Option.some.inj (hm.symm.trans hm')
      exact ⟨_, rfl, hnode, hrestarting.2 hphase⟩
    · rintro ⟨m', monitor', hm', hnode, hphase⟩
      rcases setMonitor_eq_some hm' with ⟨rfl, heq⟩ | ⟨-, hm'⟩
      · obtain rfl := Option.some.inj heq
        exact ⟨m', _, hm, hnode, hrestarting.1 hphase⟩
      · exact ⟨m', monitor', hm', hnode, hphase⟩
  have hapart : ∀ b ∈ some (Monitor.mk nodeId phase'), ∀ m' monitor', m' ≠ m →
      s.monitors m' = some monitor' → Apart b monitor' := by
    rintro b ⟨⟩ m' monitor' hne hm'
    have hold := h.apart m m' _ _ hne.symm hm hm'
    exact ⟨fun p hp => hold.1 p (hpid p hp), fun hr => hold.2 (hrestarting.1 hr)⟩
  refine
    { live := ?_
      starting := ?_
      stopping := h.stopping
      stops := h.stops
      occupied := ?_
      monitors := ?_
      apart := ?_
      backoff := fun id hb => h.backoff id ((hbackoff id).2 hb)
      recorded := h.recorded }
  · intro p P hP hlive
    refine (h.live p P hP hlive).imp_right (Or.imp_right ?_)
    rintro ⟨m', hm'⟩
    refine ⟨m', (monitors_setMonitor_of_ne _ ?_).trans hm'⟩
    rintro rfl
    rw [hm] at hm'
    simp only [Option.some.injEq, Monitor.mk.injEq] at hm'
    exact hspawned p hm'.2
  · intro id pid hw
    obtain ⟨hfree, hstopped, hall⟩ := h.starting id pid hw
    refine ⟨hfree, hstopped, fun p hp => ?_⟩
    obtain ⟨hrec, hP, hnone⟩ := hall p hp
    refine ⟨hrec, hP, fun m' monitor' hm' => ?_⟩
    rcases setMonitor_eq_some hm' with ⟨rfl, heq⟩ | ⟨-, hm'⟩
    · obtain rfl := Option.some.inj heq
      obtain ⟨hne, hold⟩ := hnone m' _ hm
      exact ⟨hne, fun hp => hold (hpid p hp)⟩
    · exact hnone m' monitor' hm'
  · intro id state hocc
    obtain ⟨hstopped, p, P, hp, hP, hnode, hrec⟩ := h.occupied id state hocc
    exact ⟨hstopped, p, P, hp, hP, hnode, hrec.imp_right (hbackoff id).1⟩
  · intro m' monitor' hm'
    rcases setMonitor_eq_some hm' with ⟨rfl, heq⟩ | ⟨-, hm'⟩
    · obtain rfl := Option.some.inj heq
      refine ⟨hkey, fun p hp => ?_⟩
      obtain ⟨hrec, P, hP, hnode, -⟩ := howns p (hpid p hp)
      exact ⟨hrec, P, hP, hnode, fun hex => hexited hex p P hp hP⟩
    · exact h.monitors m' monitor' hm'
  · intro m₁ m₂ b₁ b₂
    exact h.apart_setMonitor hapart

/-- A monitor takes the lock, changes the entry of its node, and goes on or ends. -/
theorem Inv.settle {sup' : Supervisor} {recorded' : ℕ → Bool} {monitor : Option Monitor} (h : Inv s)
    (hw : s.writer = none) (hm : s.monitors m = some ⟨nodeId, phase⟩)
    (hsole : ∀ m' monitor', m' ≠ m → s.monitors m' = some monitor' → monitor'.nodeId = nodeId →
      ¬ monitor'.phase.Restarting)
    (hother : ∀ id ≠ nodeId, sup'.nodeStates id = s.sup.nodeStates id)
    (hmore : ∀ p, s.recorded p = true → recorded' p = true)
    (hrec : ∀ p, recorded' p = true → s.recorded p = true ∨
      phase.pid = some p ∧ ∀ P, s.procs p = some P → ¬ P.Live)
    (hlive : ∀ p P, s.procs p = some P → P.nodeId = nodeId → P.Live →
      ∃ state, sup'.Occupied nodeId state ∧ state.pid = some p)
    (hentry : ∀ state, sup'.Occupied nodeId state → state.status = .running ∧
      s.stopped nodeId = false ∧ ∃ p P, state.pid = some p ∧ s.procs p = some P ∧
        P.nodeId = nodeId ∧ (recorded' p = false ∨ ∃ b ∈ monitor, b.phase.Restarting))
    (hmonitor : ∀ b ∈ monitor, b.nodeId = nodeId ∧ ¬ b.phase.Exited ∧
      ∀ p, b.phase.pid = some p → phase.pid = some p ∧ recorded' p = false)
    (hbackoff : ∀ b ∈ monitor, b.phase.Restarting → ∃ state p,
      sup'.nodeStates nodeId = some state ∧ state.status = .running ∧ state.pid = some p ∧
        recorded' p = true) :
    Inv ({ s with sup := sup', recorded := recorded' }.setMonitor m monitor) := by
  obtain ⟨hkey, howns⟩ := h.monitors m _ hm
  -- only the exit of the process of the monitor is recorded
  have hfalse : ∀ p, s.recorded p = false → phase.pid ≠ some p → recorded' p = false := by
    intro p hold hpid
    by_contra hnow
    rcases hrec p (by simpa using hnow) with hrec | ⟨hp, -⟩
    · rw [hold] at hrec
      cases hrec
    · exact hpid hp
  have hapart : ∀ b ∈ monitor, ∀ m' monitor', m' ≠ m → s.monitors m' = some monitor' →
      Apart b monitor' := by
    intro b hb m' monitor' hne hm'
    obtain ⟨hnode, -, hpid⟩ := hmonitor b hb
    refine ⟨fun p hp => (h.apart m m' _ _ hne.symm hm hm').1 p (hpid p hp).1, fun _ hr heq => ?_⟩
    exact hsole m' monitor' hne hm' (heq.symm.trans hnode) hr
  refine
    { live := ?_
      starting := fun id q hq => by rw [show s.writer = _ from hq] at hw; cases hw
      stopping := fun id q hq => by rw [show s.writer = _ from hq] at hw; cases hw
      stops := ?_
      occupied := ?_
      monitors := ?_
      apart := ?_
      backoff := ?_
      recorded := ?_ }
  · intro p P hP hPlive
    by_cases hnode : P.nodeId = nodeId
    · rw [hnode]
      exact .inr (.inl (hlive p P hP hnode hPlive))
    · rcases h.live p P hP hPlive with hwriter | ⟨state, hocc, hp⟩ | ⟨m', hm'⟩
      · rw [hw] at hwriter
        cases hwriter
      · exact .inr (.inl ⟨state, hocc.congr (hother _ hnode), hp⟩)
      · refine .inr (.inr ⟨m', (monitors_setMonitor_of_ne _ ?_).trans hm'⟩)
        rintro rfl
        rw [hm] at hm'
        simp only [Option.some.injEq, Monitor.mk.injEq] at hm'
        exact hnode hm'.1.symm
  · intro id state hstate hstopping
    by_cases hid : id = nodeId
    · subst hid
      rw [(hentry state ⟨hstate, .inr hstopping⟩).1] at hstopping
      cases hstopping
    · exact h.stops id state ((hother id hid).symm.trans hstate) hstopping
  · intro id state hocc
    by_cases hid : id = nodeId
    · subst hid
      obtain ⟨-, hstopped, p, P, hp, hP, hnode, hp'⟩ := hentry state hocc
      refine ⟨hstopped, p, P, hp, hP, hnode, hp'.imp_right ?_⟩
      rintro ⟨b, rfl, hr⟩
      exact ⟨m, b, Function.update_self _ _ _, (hmonitor b rfl).1, hr⟩
    · obtain ⟨hstopped, p, P, hp, hP, hnode, hp'⟩ :=
        h.occupied id state (hocc.congr (hother id hid).symm)
      refine ⟨hstopped, p, P, hp, hP, hnode, hp'.imp ?_ fun hb => ?_⟩
      · intro hold
        refine hfalse p hold fun hpid => ?_
        obtain ⟨-, Q, hQ, hQnode, -⟩ := howns p hpid
        obtain rfl : P = Q := Option.some.inj (hP.symm.trans hQ)
        exact hid (hnode.symm.trans hQnode)
      · refine Backoff.setMonitor (s := { s with sup := sup', recorded := recorded' }) hb ?_
        intro monitor' hm' hnode'
        obtain rfl := Option.some.inj (hm.symm.trans hm')
        exact absurd hnode'.symm hid
  · intro m' monitor' hm'
    rcases setMonitor_eq_some hm' with ⟨rfl, rfl⟩ | ⟨hne, hm'⟩
    · obtain ⟨hnode, hexited, hpid⟩ := hmonitor monitor' rfl
      refine ⟨hkey, fun p hp => ?_⟩
      obtain ⟨hp, hnow⟩ := hpid p hp
      obtain ⟨-, P, hP, hPnode, -⟩ := howns p hp
      exact ⟨hnow, P, hP, hPnode.trans hnode.symm, fun hex => absurd hex hexited⟩
    · obtain ⟨hkey', howns'⟩ := h.monitors m' monitor' hm'
      refine ⟨hkey', fun p hp => ?_⟩
      obtain ⟨hold, hP⟩ := howns' p hp
      refine ⟨hfalse p hold fun hpid => ?_, hP⟩
      exact (h.apart m m' _ _ hne.symm hm hm').1 p hpid hp
  · intro m₁ m₂ b₁ b₂
    exact h.apart_setMonitor hapart
  · rintro id ⟨m', monitor', hm', hnode, hr⟩
    rcases setMonitor_eq_some hm' with ⟨rfl, rfl⟩ | ⟨hne, hm'⟩
    · obtain rfl : nodeId = id := (hmonitor monitor' rfl).1.symm.trans hnode
      exact hbackoff monitor' rfl hr
    · have hid : id ≠ nodeId := by
        rintro rfl
        exact hsole m' monitor' hne hm' hnode hr
      obtain ⟨state, p, hstate, hrunning, hp, hrec⟩ := h.backoff id ⟨m', monitor', hm', hnode, hr⟩
      exact ⟨state, p, (hother id hid).trans hstate, hrunning, hp, hmore p hrec⟩
  · intro p hp
    rcases hrec p hp with hp | ⟨hpid, hdead⟩
    · exact h.recorded p hp
    · obtain ⟨-, P, hP, -, -⟩ := howns p hpid
      exact ⟨P, hP, hdead P hP⟩

/-- A monitor ends that had no restart to make. -/
theorem Inv.remove (h : Inv s) (hm : s.monitors m = some ⟨nodeId, phase⟩)
    (hphase : ¬ phase.Restarting) : Inv (s.setMonitor m none) := by
  have hbackoff : ∀ id, s.Backoff id → (s.setMonitor m none).Backoff id := by
    intro id hb
    refine hb.setMonitor fun monitor' hm' _ hr => ?_
    obtain rfl := Option.some.inj (hm.symm.trans hm')
    exact absurd hr hphase
  have hmonitors : ∀ m' monitor', (s.setMonitor m none).monitors m' = some monitor' →
      s.monitors m' = some monitor' := by
    intro m' monitor' hm'
    rcases setMonitor_eq_some hm' with ⟨-, hnone⟩ | ⟨-, hm'⟩
    · cases hnone
    · exact hm'
  refine
    { live := ?_
      starting := ?_
      stopping := h.stopping
      stops := h.stops
      occupied := ?_
      monitors := fun m' monitor' hm' => h.monitors m' monitor' (hmonitors m' monitor' hm')
      apart := fun m₁ m₂ b₁ b₂ hne h₁ h₂ =>
        h.apart m₁ m₂ b₁ b₂ hne (hmonitors _ _ h₁) (hmonitors _ _ h₂)
      backoff := ?_
      recorded := h.recorded }
  · intro p P hP hlive
    refine (h.live p P hP hlive).imp_right (Or.imp_right ?_)
    rintro ⟨m', hm'⟩
    refine ⟨m', (monitors_setMonitor_of_ne _ ?_).trans hm'⟩
    rintro rfl
    obtain rfl : phase = .spawned (some p) := congrArg Monitor.phase (Option.some.inj (hm.symm.trans hm'))
    exact hphase trivial
  · intro id pid hw
    obtain ⟨hfree, hstopped, hall⟩ := h.starting id pid hw
    refine ⟨hfree, hstopped, fun p hp => ?_⟩
    obtain ⟨hrec, hP, hnone⟩ := hall p hp
    exact ⟨hrec, hP, fun m' monitor' hm' => hnone m' monitor' (hmonitors m' monitor' hm')⟩
  · intro id state hocc
    obtain ⟨hstopped, p, P, hp, hP, hnode, hrec⟩ := h.occupied id state hocc
    exact ⟨hstopped, p, P, hp, hP, hnode, hrec.imp_right (hbackoff id)⟩
  · rintro id ⟨m', monitor', hm', hnode, hr⟩
    exact h.backoff id ⟨m', monitor', hmonitors m' monitor' hm', hnode, hr⟩

end Tasks

end Autonomi.Daemon
