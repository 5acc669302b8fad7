/-
  No node is removed while it runs or is being started.
-/
import Autonomi.Daemon.Handlers
import Autonomi.Lib.Best

namespace Autonomi.Daemon

open Lib

/-! ## Nodes that run or will run -/

/-- The monitor goes on to restart its node, unless its attempt fails. -/
def MonitorPhase.Restarts (status : Option NodeStatus) : MonitorPhase → Prop
  | .waiting _ | .observed _ _ => status ≠ some .stopped ∧ status ≠ some .stopping
  | .cleanExit _ => False
  | .crashed _ | .sleeping _ | .spawned _ => True

def Supervisor.status (sup : Supervisor) (id : ℕ) : Option NodeStatus :=
  (sup.nodeStates id).map NodeRuntime.status

/-- The node has a live process. -/
def Supervisor.Live (sup : Supervisor) (id : ℕ) : Prop :=
  sup.status id = some .running ∨ sup.status id = some .starting

namespace Tasks

def Restarting (s : Tasks) (id : ℕ) : Prop :=
  ∃ m monitor, s.monitors m = some monitor ∧ monitor.nodeId = id ∧
    monitor.phase.Restarts (s.sup.status id)

def Alive (s : Tasks) (id : ℕ) : Prop :=
  s.sup.Live id ∨ (∃ pid, s.writer = some (.starting id pid)) ∨ s.Restarting id

end Tasks

/-- The mutation takes the entry of the node out of the registry. -/
def RegistryOp.Removes (id : ℕ) : RegistryOp → Prop
  | addNodes _ _ _ => False
  | removeNode nodeId => nodeId = id
  | reset => True

namespace AppState

/-- The node is being started. -/
def Starting (s : AppState) (id : ℕ) : Prop :=
  (∃ (k : ℕ) (ids : List ℕ), s.handlers[k]? = some (.starting ids) ∧ id ∈ ids) ∨
    ∃ pid, s.tasks.writer = some (.starting id pid)

/-- **No running node is removed**: it is in the registry and in the copy, and no handler is about to
    remove a node that is running or being started. -/
structure Safe (s : AppState) : Prop where
  registered : ∀ id, s.tasks.sup.Live id →
    (s.file.nodes id).isSome ∧ (s.registry.nodes id).isSome
  kept : ∀ (k : ℕ) (op : RegistryOp) (id : ℕ), s.handlers[k]? = some (.mutating op) → op.Removes id →
    (s.file.nodes id).isSome → ¬ s.tasks.sup.Live id ∧ ¬ s.Starting id

/-- Nothing is in the way of what the handler goes on to do: a node that it starts is in the registry
    file, and no other handler is about to remove it; one that it removes is not being started, and
    no monitor is about to restart it. -/
def Unopposed (s : AppState) : Handler → Prop
  | .starting ids => ∀ id ∈ ids, (s.file.nodes id).isSome ∧
      ∀ (k : ℕ) (op : RegistryOp), s.handlers[k]? = some (.mutating op) → ¬ op.Removes id
  | .mutating op => ∀ id, op.Removes id → (s.file.nodes id).isSome →
      ¬ s.Starting id ∧ ¬ s.tasks.Restarting id
  | _ => True

def Careful (s : AppState) : AppAction → Prop
  | .enter k => ∀ request handler, s.handlers[k]? = some (.waiting request) →
      s.enter request = some handler → s.Unopposed handler
  | _ => True

end AppState

/-! ## The steps of the supervisor and of the monitors -/

namespace Supervisor

variable {sup : Supervisor} {nodeId id now : ℕ} {state : NodeRuntime}

@[simp] theorem status_insert_self (sup : Supervisor) (nodeId : ℕ) (state : NodeRuntime) :
    (sup.insert nodeId state).status nodeId = some state.status := by
  rw [status, insert_self]
  rfl

theorem status_insert_of_ne (h : id ≠ nodeId) : (sup.insert nodeId state).status id = sup.status id := by
  rw [status, insert_of_ne sup state h]
  rfl

theorem status_updateState_of_ne {status : NodeStatus} {pid : Option ℕ} (h : id ≠ nodeId) :
    (sup.updateState nodeId status pid now).status id = sup.status id := by
  rw [updateState]
  split
  · rfl
  · exact status_insert_of_ne h

theorem status_updateState_self (sup : Supervisor) (nodeId : ℕ) (status : NodeStatus)
    (pid : Option ℕ) (now : ℕ) :
    (sup.updateState nodeId status pid now).status nodeId =
      (sup.status nodeId).map fun _ => status := by
  rw [updateState]
  cases h : sup.nodeStates nodeId with
  | none => simp [Supervisor.status, h]
  | some state =>
    simp only [status_insert_self]
    simp [Supervisor.status, h]

theorem status_endStop_of_ne (h : id ≠ nodeId) : (sup.endStop nodeId).status id = sup.status id := by
  rw [endStop]
  split
  · rfl
  · exact status_insert_of_ne h

theorem status_endStop_self (sup : Supervisor) (nodeId : ℕ) :
    (sup.endStop nodeId).status nodeId = (sup.status nodeId).map fun _ => .stopped := by
  rw [endStop]
  cases h : sup.nodeStates nodeId with
  | none => simp [Supervisor.status, h]
  | some state =>
    simp only [status_insert_self]
    simp [Supervisor.status, h]

theorem status_recordCrash_of_ne (h : id ≠ nodeId) :
    (sup.recordCrash nodeId now).1.status id = sup.status id := by
  simp only [recordCrash]
  split
  · rfl
  · split_ifs
    · exact status_insert_of_ne h
    · exact status_insert_of_ne h

/-- A crash leaves the status, or makes it `errored`. -/
theorem status_recordCrash_self (h : (sup.recordCrash nodeId now).1.status nodeId = some .starting) :
    sup.status nodeId = some .starting := by
  simp only [recordCrash] at h
  cases hstate : sup.nodeStates nodeId with
  | none =>
    rw [hstate] at h
    exact h
  | some state =>
    have hreset : (state.resetIfStable now).status = state.status := by
      rw [NodeRuntime.resetIfStable]
      split
      · split_ifs <;> rfl
      · rfl
    rw [hstate] at h
    simp only at h
    split_ifs at h
    · rw [status_insert_self] at h
      cases h
    · rw [status_insert_self, NodeRuntime.countCrash, hreset] at h
      rw [status, hstate]
      exact h

end Supervisor

namespace Tasks

variable {s s' : Tasks} {nodeId id : ℕ}

/-- The step is about one node, and does not bring it to life. -/
structure Concerns (s s' : Tasks) (nodeId : ℕ) : Prop where
  status : ∀ id, id ≠ nodeId → s'.sup.status id = s.sup.status id
  writer : ∀ id pid, id ≠ nodeId → s'.writer = some (.starting id pid) →
    s.writer = some (.starting id pid)
  monitors : ∀ m monitor, monitor.nodeId ≠ nodeId → s'.monitors m = some monitor →
    s.monitors m = some monitor
  alive : s'.Alive nodeId → s.Alive nodeId
  starting : s'.sup.status nodeId = some .starting → s.sup.status nodeId = some .starting

theorem Concerns.alive_of (h : Concerns s s' nodeId) (hid : s'.Alive id) : s.Alive id := by
  by_cases heq : id = nodeId
  · rw [heq] at hid ⊢
    exact h.alive hid
  · rcases hid with hlive | ⟨pid, hw⟩ | ⟨m, monitor, hm, rfl, hrestarts⟩
    · left
      rwa [Supervisor.Live, h.status id heq] at hlive
    · exact Or.inr (Or.inl ⟨pid, h.writer id pid heq hw⟩)
    · rw [h.status _ heq] at hrestarts
      exact Or.inr (Or.inr ⟨m, monitor, h.monitors m monitor heq hm, rfl, hrestarts⟩)

theorem Concerns.status_ne_starting (h : Concerns s s' nodeId)
    (hs : ∀ id, s.sup.status id ≠ some .starting) : ∀ id, s'.sup.status id ≠ some .starting := by
  intro id hid
  by_cases heq : id = nodeId
  · rw [heq] at hid
    exact hs nodeId (h.starting hid)
  · rw [h.status id heq] at hid
    exact hs id hid

theorem setMonitor_of_ne {m m' : ℕ} {monitor : Monitor} {new : Option Monitor}
    (hnew : ∀ y ∈ new, y.nodeId = nodeId) (hne : monitor.nodeId ≠ nodeId)
    (h : (s.setMonitor m new).monitors m' = some monitor) : s.monitors m' = some monitor := by
  by_cases heq : m' = m
  · subst heq
    rw [monitors_setMonitor_self] at h
    exact absurd (hnew monitor h) hne
  · rwa [monitors_setMonitor_of_ne new heq] at h

/-- A node that is stopped is alive only for the sake of a monitor that restarts it. -/
theorem alive_of_stopped
    (hstatus : s'.sup.status nodeId = (s.sup.status nodeId).map fun _ => .stopped)
    (hwriter : ∀ pid, s'.writer ≠ some (.starting nodeId pid))
    (hmonitors : ∀ m monitor, s'.monitors m = some monitor → s.monitors m = some monitor)
    (h : s'.Alive nodeId) : s.Alive nodeId := by
  rcases h with hlive | ⟨pid, hw⟩ | ⟨m, monitor, hm, hnode, hrestarts⟩
  · rw [Supervisor.Live, hstatus] at hlive
    cases hs : s.sup.status nodeId with
    | none => simp [hs] at hlive
    | some status => simp [hs] at hlive
  · exact absurd hw (hwriter pid)
  · refine Or.inr (Or.inr ⟨m, monitor, hmonitors m monitor hm, hnode, ?_⟩)
    rw [hstatus] at hrestarts
    cases hs : s.sup.status nodeId with
    | none => simpa [hs] using hrestarts
    | some status =>
      cases hphase : monitor.phase with
      | waiting pid => simp [hphase, hs, MonitorPhase.Restarts] at hrestarts
      | observed pid exitCode => simp [hphase, hs, MonitorPhase.Restarts] at hrestarts
      | cleanExit pid => simp [hphase, MonitorPhase.Restarts] at hrestarts
      | crashed pid => trivial
      | sleeping backoff => trivial
      | spawned pid => trivial

theorem nodeStatus_of_eq {status : NodeStatus} (h : s.sup.status nodeId = some status) :
    s.sup.nodeStatus nodeId = .ok status := by
  obtain ⟨state, hstate, rfl⟩ := Option.map_eq_some_iff.1 h
  rw [Supervisor.nodeStatus, hstate]

/-- A step about a node that is alive. -/
theorem Concerns.of_alive (h : s.Alive nodeId)
    (hstatus : ∀ id, id ≠ nodeId → s'.sup.status id = s.sup.status id)
    (hwriter : ∀ id pid, id ≠ nodeId → s'.writer = some (.starting id pid) →
      s.writer = some (.starting id pid))
    (hmonitors : ∀ m monitor, monitor.nodeId ≠ nodeId → s'.monitors m = some monitor →
      s.monitors m = some monitor)
    (hstarting : s'.sup.status nodeId = some .starting → s.sup.status nodeId = some .starting) :
    Concerns s s' nodeId :=
  ⟨hstatus, hwriter, hmonitors, fun _ => h, hstarting⟩

/-- A step that changes neither the supervisor nor who waits for it. -/
theorem Concerns.of_eq (hsup : s'.sup = s.sup) (hwriter : s'.writer = s.writer)
    (hmonitors : s'.monitors = s.monitors) (nodeId : ℕ) : Concerns s s' nodeId where
  status id _ := by rw [hsup]
  writer id pid _ h := by rwa [hwriter] at h
  monitors m monitor _ h := by rwa [hmonitors] at h
  alive h := by
    rwa [Alive, Restarting, hsup, hwriter, hmonitors] at h
  starting h := by rwa [hsup] at h

variable {pid m now : ℕ} {exitCode : Option ℤ}

theorem concerns_exit (h : s.exit pid exitCode = some s') : Concerns s s' 0 := by
  rw [exit] at h
  split at h
  · obtain rfl := Option.some.inj h
    exact .of_eq (by rfl) (by rfl) (by rfl) 0
  · cases h

theorem concerns_startSpawned {spawned : Option ℕ} (hw : s.writer = some (.starting nodeId none))
    (h : s.startSpawned nodeId spawned = some s') : Concerns s s' nodeId := by
  have halive : s.Alive nodeId := Or.inr (Or.inl ⟨none, hw⟩)
  cases spawned with
  | none =>
    obtain rfl := Option.some.inj h
    exact .of_alive halive (fun _ _ => rfl) nofun (fun _ _ _ h => h) id
  | some pid =>
    obtain ⟨s₁, hspawn, rfl⟩ := Option.map_eq_some_iff.1 h
    rw [spawn] at hspawn
    split at hspawn
    · cases hspawn
    · obtain rfl := Option.some.inj hspawn
      refine .of_alive halive (fun _ _ => rfl) ?_ (fun _ _ _ h => h) id
      rintro id pid' hne ⟨⟩
      exact absurd rfl hne

theorem concerns_startDone {health : HealthCheck}
    (hw : s.writer = some (.starting nodeId (some pid)))
    (h : s.startDone nodeId pid now health = some s') : Concerns s s' nodeId := by
  have halive : s.Alive nodeId := Or.inr (Or.inl ⟨_, hw⟩)
  have hsup : ∀ spawned, ((s.sup.startNode nodeId spawned now).1 = s.sup ∨
      ∃ state : NodeRuntime, state.status ≠ .starting ∧
        (s.sup.startNode nodeId spawned now).1 = s.sup.insert nodeId state) := by
    intro spawned
    unfold Supervisor.startNode
    split_ifs
    · exact Or.inl rfl
    · cases spawned with
      | failed message => exact Or.inl rfl
      | noPid => exact Or.inl rfl
      | exited detail => exact Or.inr ⟨.errored, nofun, rfl⟩
      | running pid => exact Or.inr ⟨.running pid now, nofun, rfl⟩
  have hstatus : ∀ spawned id, id ≠ nodeId →
      (s.sup.startNode nodeId spawned now).1.status id = s.sup.status id := by
    intro spawned id hne
    rcases hsup spawned with heq | ⟨state, -, heq⟩
    · rw [heq]
    · rw [heq, Supervisor.status_insert_of_ne hne]
  have hstarting : ∀ spawned,
      (s.sup.startNode nodeId spawned now).1.status nodeId = some .starting →
        s.sup.status nodeId = some .starting := by
    intro spawned hst
    rcases hsup spawned with heq | ⟨state, hne, heq⟩
    · rwa [heq] at hst
    · rw [heq, Supervisor.status_insert_self] at hst
      exact absurd (Option.some.inj hst) hne
  cases health with
  | exited =>
    simp only [startDone] at h
    split at h
    · obtain rfl := Option.some.inj h
      exact .of_alive halive (hstatus _) nofun (fun _ _ _ h => h) (hstarting _)
    · cases h
  | failed =>
    obtain rfl := Option.some.inj h
    exact .of_alive halive (fun _ _ => rfl) nofun (fun _ _ _ h => h) id
  | timeout =>
    obtain rfl := Option.some.inj h
    refine .of_alive halive (hstatus _) nofun (fun _ _ => setMonitor_of_ne ?_) (hstarting _)
    rintro y ⟨⟩
    rfl

theorem concerns_stopNode (s : Tasks) (nodeId : ℕ) :
    Concerns s (s.stopNode nodeId) nodeId := by
  rw [stopNode]
  split
  · rename_i sup pid hstop
    rw [Supervisor.beginStop] at hstop
    split at hstop
    · cases hstop
    · rename_i state hstate
      split_ifs at hstop with hrunning
      obtain ⟨rfl, -⟩ := Prod.mk.inj (Except.ok.inj hstop)
      refine .of_alive (Or.inl (Or.inl ?_)) (fun id hne => Supervisor.status_insert_of_ne hne) nofun
        (fun _ _ _ h => h) fun hst => ?_
      · rw [Supervisor.status, hstate, Option.map_some, not_not.1 hrunning]
      · rw [Supervisor.status_insert_self] at hst
        cases hst
  · exact .of_eq rfl rfl rfl nodeId

theorem concerns_stopDone (s : Tasks) (nodeId : ℕ) :
    Concerns s (s.stopDone nodeId) nodeId where
  status id hne := Supervisor.status_endStop_of_ne hne
  writer := nofun
  monitors _ _ _ h := h
  alive := alive_of_stopped (Supervisor.status_endStop_self _ _) nofun fun _ _ h => h
  starting h := by
    rw [stopDone, Supervisor.status_endStop_self] at h
    obtain ⟨-, -, h⟩ := Option.map_eq_some_iff.1 h
    cases h

theorem concerns_observe (hm : s.monitors m = some ⟨nodeId, .waiting pid⟩)
    (h : s.observe m nodeId pid = some s') : Concerns s s' nodeId := by
  rw [observe] at h
  split at h
  · obtain rfl := Option.some.inj h
    refine ⟨fun _ _ => rfl, fun _ _ _ h => h, fun _ _ => setMonitor_of_ne ?_, ?_, id⟩
    · rintro y ⟨⟩
      rfl
    · rintro (hlive | hw | ⟨m', monitor, hm', hnode, hrestarts⟩)
      · exact Or.inl hlive
      · exact Or.inr (Or.inl hw)
      · by_cases heq : m' = m
        · subst heq
          rw [monitors_setMonitor_self] at hm'
          obtain rfl := Option.some.inj hm'
          exact Or.inr (Or.inr ⟨m', _, hm, rfl, hrestarts⟩)
        · rw [monitors_setMonitor_of_ne _ heq] at hm'
          exact Or.inr (Or.inr ⟨m', monitor, hm', hnode, hrestarts⟩)
  · cases h

theorem concerns_check (hm : s.monitors m = some ⟨nodeId, .observed pid exitCode⟩) :
    Concerns s (s.check m nodeId pid exitCode) nodeId := by
  have hmonitor : ∀ {y : Monitor}, y.nodeId = nodeId → ∀ y' ∈ some y, y'.nodeId = nodeId := by
    rintro y hy y' ⟨⟩
    exact hy
  -- the monitor that ends is no monitor that restarts
  have hend : Concerns s (s.setMonitor m none) nodeId := by
    refine ⟨fun _ _ => rfl, fun _ _ _ h => h, fun _ _ => setMonitor_of_ne nofun, ?_, id⟩
    rintro (hlive | hw | ⟨m', monitor, hm', hnode, hrestarts⟩)
    · exact Or.inl hlive
    · exact Or.inr (Or.inl hw)
    · by_cases heq : m' = m
      · subst heq
        rw [monitors_setMonitor_self] at hm'
        cases hm'
      · rw [monitors_setMonitor_of_ne _ heq] at hm'
        exact Or.inr (Or.inr ⟨m', monitor, hm', hnode, hrestarts⟩)
  rw [check]
  split
  · exact hend
  · exact hend
  · rename_i hstopped hstopping
    have halive : s.Alive nodeId := by
      refine Or.inr (Or.inr ⟨m, _, hm, rfl, fun h => ?_, fun h => ?_⟩)
      · exact hstopped (nodeStatus_of_eq h)
      · exact hstopping (nodeStatus_of_eq h)
    exact .of_alive halive (fun _ _ => rfl) (fun _ _ _ h => h)
      (fun _ _ => setMonitor_of_ne (hmonitor rfl)) id

theorem concerns_recordClean (hm : s.monitors m = some ⟨nodeId, .cleanExit pid⟩)
    (hw : s.writer = none) : Concerns s (s.recordClean m nodeId pid now) nodeId where
  status id hne := Supervisor.status_updateState_of_ne hne
  writer id pid _ h := h
  monitors _ _ := setMonitor_of_ne nofun
  alive := by
    refine alive_of_stopped (Supervisor.status_updateState_self _ _ _ _ _) (fun pid h => ?_)
      fun m' monitor hm' => ?_
    · rw [show s.writer = _ from h] at hw
      cases hw
    · by_cases heq : m' = m
      · subst heq
        rw [recordClean, monitors_setMonitor_self] at hm'
        cases hm'
      · rwa [recordClean, monitors_setMonitor_of_ne _ heq] at hm'
  starting h := by
    have h : (s.sup.updateState nodeId .stopped none now).status nodeId = some .starting := h
    rw [Supervisor.status_updateState_self] at h
    obtain ⟨-, -, h⟩ := Option.map_eq_some_iff.1 h
    cases h

theorem concerns_recordCrash (hm : s.monitors m = some ⟨nodeId, .crashed pid⟩) :
    Concerns s (s.recordCrash m nodeId pid now) nodeId := by
  have halive : s.Alive nodeId := Or.inr (Or.inr ⟨m, _, hm, rfl, trivial⟩)
  refine .of_alive halive (fun id hne => Supervisor.status_recordCrash_of_ne hne)
    (fun _ _ _ h => h) (fun _ _ => setMonitor_of_ne fun y hy => ?_) fun h =>
      Supervisor.status_recordCrash_self h
  split_ifs at hy
  · cases hy
    rfl
  · cases hy

theorem concerns_respawn {spawned : Option ℕ} {backoff : ℕ}
    (hm : s.monitors m = some ⟨nodeId, .sleeping backoff⟩)
    (h : s.respawn m nodeId spawned = some s') : Concerns s s' nodeId := by
  have halive : s.Alive nodeId := Or.inr (Or.inr ⟨m, _, hm, rfl, trivial⟩)
  cases spawned with
  | none =>
    obtain rfl := Option.some.inj h
    refine .of_alive halive (fun _ _ => rfl) (fun _ _ _ h => h)
      (fun _ _ => setMonitor_of_ne ?_) id
    rintro y ⟨⟩
    rfl
  | some pid =>
    obtain ⟨s₁, hspawn, rfl⟩ := Option.map_eq_some_iff.1 h
    rw [spawn] at hspawn
    split at hspawn
    · cases hspawn
    · obtain rfl := Option.some.inj hspawn
      refine .of_alive halive (fun _ _ => rfl) (fun _ _ _ h => h)
        (fun _ _ => setMonitor_of_ne ?_) id
      rintro y ⟨⟩
      rfl

theorem concerns_recordRestart {spawned : Option ℕ}
    (hm : s.monitors m = some ⟨nodeId, .spawned spawned⟩) :
    Concerns s (s.recordRestart m nodeId now spawned) nodeId := by
  have halive : s.Alive nodeId := Or.inr (Or.inr ⟨m, _, hm, rfl, trivial⟩)
  have hstarting : ∀ status pid, status ≠ .starting →
      (s.sup.updateState nodeId status pid now).status nodeId = some .starting →
        s.sup.status nodeId = some .starting := by
    intro status pid hne h
    rw [Supervisor.status_updateState_self] at h
    obtain ⟨-, -, h⟩ := Option.map_eq_some_iff.1 h
    exact absurd h hne
  cases spawned with
  | none =>
    exact .of_alive halive (fun _ hne => Supervisor.status_updateState_of_ne hne)
      (fun _ _ _ h => h) (fun _ _ => setMonitor_of_ne nofun) (hstarting _ _ nofun)
  | some pid =>
    refine .of_alive halive (fun _ hne => Supervisor.status_updateState_of_ne hne)
      (fun _ _ _ h => h) (fun _ _ => setMonitor_of_ne ?_) (hstarting _ _ nofun)
    rintro y ⟨⟩
    rfl

/-- **No step but a call of `start_node` brings a node to life.** -/
theorem concerns_step {a : TaskAction} (hstart : ∀ id, a ≠ .startNode id) (h : s.step a = some s') :
    ∃ nodeId, Concerns s s' nodeId := by
  cases a with
  | startNode id => exact absurd rfl (hstart id)
  | startSpawned spawned =>
    simp only [Tasks.step] at h
    split at h
    · exact ⟨_, concerns_startSpawned (by assumption) h⟩
    · cases h
  | startDone health now =>
    simp only [Tasks.step] at h
    split at h
    · exact ⟨_, concerns_startDone (by assumption) h⟩
    · cases h
  | stopNode nodeId =>
    simp only [Tasks.step] at h
    split_ifs at h
    obtain rfl := Option.some.inj h
    exact ⟨_, concerns_stopNode s nodeId⟩
  | stopKill exitCode =>
    simp only [Tasks.step] at h
    split at h
    · exact ⟨_, concerns_exit h⟩
    · cases h
  | stopDone =>
    simp only [Tasks.step] at h
    split at h
    · obtain rfl := Option.some.inj h
      exact ⟨_, concerns_stopDone s _⟩
    · cases h
  | exit pid exitCode => exact ⟨_, concerns_exit h⟩
  | observe m =>
    simp only [Tasks.step] at h
    split at h
    · exact ⟨_, concerns_observe (by assumption) h⟩
    · cases h
  | check m =>
    simp only [Tasks.step] at h
    split at h
    · obtain rfl := Option.some.inj h
      exact ⟨_, concerns_check (by assumption)⟩
    · cases h
  | recordClean m now =>
    simp only [Tasks.step] at h
    split at h
    · obtain rfl := Option.some.inj h
      exact ⟨_, concerns_recordClean (by assumption) (by assumption)⟩
    · cases h
  | recordCrash m now =>
    simp only [Tasks.step] at h
    split at h
    · obtain rfl := Option.some.inj h
      exact ⟨_, concerns_recordCrash (by assumption)⟩
    · cases h
  | respawn m pid =>
    simp only [Tasks.step] at h
    split at h
    · exact ⟨_, concerns_respawn (by assumption) h⟩
    · cases h
  | recordRestart m now =>
    simp only [Tasks.step] at h
    split at h
    · obtain rfl := Option.some.inj h
      exact ⟨_, concerns_recordRestart (by assumption)⟩
    · cases h

end Tasks

/-! ## The registry -/

/-- A mutation keeps the nodes that it does not remove. -/
theorem RegistryOp.isSome_apply {op : RegistryOp} {r r' : NodeRegistry} {id : ℕ}
    (h : op.apply r = .ok r') (hkeep : ¬ op.Removes id) (hid : (r.nodes id).isSome) :
    (r'.nodes id).isSome := by
  cases op with
  | addNodes opts defaultDir version =>
    obtain rfl := Except.ok.inj h
    have hfold : ∀ (l : List ℕ) (r : NodeRegistry), (r.nodes id).isSome →
        ((l.foldl (opts.addNode defaultDir version) r).nodes id).isSome := by
      intro l
      induction l with
      | nil => exact fun _ h => h
      | cons i l ih =>
        intro r hr
        refine ih _ ?_
        by_cases heq : id = r.nextId
        · subst heq
          rw [AddNodeOpts.nodes_addNode_self]
          rfl
        · rwa [AddNodeOpts.nodes_addNode_of_ne heq]
    exact hfold _ r hid
  | removeNode nodeId =>
    simp only [apply, NodeRegistry.remove] at h
    split at h
    · obtain rfl := Except.ok.inj h
      change (Function.update r.nodes nodeId none id).isSome
      rwa [Function.update_of_ne (Ne.symm hkeep)]
    · cases h
  | reset => exact absurd trivial hkeep

theorem mem_nodeIds {id : ℕ} : id ∈ nodeIds ↔ id < 2 ^ 32 := by
  unfold nodeIds
  exact List.mem_range

theorem NodeRegistry.mem_list {r : NodeRegistry} {id : ℕ} :
    id ∈ r.list ↔ id < 2 ^ 32 ∧ (r.nodes id).isSome := by
  rw [NodeRegistry.list, List.mem_filter, mem_nodeIds]

namespace Supervisor

variable {sup : Supervisor} {id : ℕ}

theorem isRunning_of_status (h : sup.status id = some .running) : sup.isRunning id = true := by
  obtain ⟨state, hstate, hrunning⟩ := Option.map_eq_some_iff.1 h
  rw [isRunning, hstate]
  exact decide_eq_true hrunning

theorem nodeCounts_pos (hid : id < 2 ^ 32) (h : sup.Live id) : 0 < sup.nodeCounts.1 := by
  have hlive : ∃ state, sup.nodeStates id = some state ∧
      (state.status = .running ∨ state.status = .starting) := by
    rcases h with h | h
    · obtain ⟨state, hstate, hst⟩ := Option.map_eq_some_iff.1 h
      exact ⟨state, hstate, Or.inl hst⟩
    · obtain ⟨state, hstate, hst⟩ := Option.map_eq_some_iff.1 h
      exact ⟨state, hstate, Or.inr hst⟩
  obtain ⟨state, hstate, hst⟩ := hlive
  have hmem : state ∈ nodeIds.filterMap sup.nodeStates :=
    List.mem_filterMap.2 ⟨id, mem_nodeIds.2 hid, hstate⟩
  rw [nodeCounts]
  exact List.countP_pos_iff.2 ⟨state, hmem, by simpa using hst⟩

end Supervisor

/-! ## The handlers -/

/-- The handler is not about to remove a node, nor to replace the copy. -/
def Handler.Harmless : Handler → Prop
  | mutating _ | refreshed _ => False
  | _ => True

def Handler.starts : Handler → List ℕ
  | starting ids => ids
  | _ => []

namespace AppState

def Alive (s : AppState) (id : ℕ) : Prop :=
  s.tasks.Alive id ∨ ∃ (k : ℕ) (ids : List ℕ), s.handlers[k]? = some (.starting ids) ∧ id ∈ ids

/-- A node that is alive is registered, and nothing that a handler is about to do removes it. -/
structure Inv (s : AppState) : Prop where
  registered : ∀ id, s.Alive id →
    id < 2 ^ 32 ∧ (s.file.nodes id).isSome ∧ (s.registry.nodes id).isSome
  fresh : ∀ (k : ℕ) (r : NodeRegistry), s.handlers[k]? = some (.refreshed (some r)) →
    ∀ id, s.Alive id → (r.nodes id).isSome
  locked : ∀ (k : ℕ) (fresh : Option NodeRegistry), s.handlers[k]? = some (.refreshed fresh) →
    s.registryLock = some k
  mutating : ∀ (k : ℕ) (op : RegistryOp) (id : ℕ), s.handlers[k]? = some (.mutating op) →
    op.Removes id → ¬ s.Alive id
  starting : ∀ id, s.tasks.sup.status id ≠ some .starting

variable {s s' : AppState} {k j id : ℕ} {handler handler' : Handler} {request : Request}

theorem alive_of_starting (h : s.Starting id) : s.Alive id := by
  rcases h with h | h
  · exact Or.inr h
  · exact Or.inl (Or.inr (Or.inl h))

theorem Inv.safe (h : Inv s) : Safe s where
  registered id hlive := (h.registered id (Or.inl (Or.inl hlive))).2
  kept k op id hk hop _ := ⟨fun hlive => h.mutating k op id hk hop (Or.inl (Or.inl hlive)),
    fun hstarting => h.mutating k op id hk hop (alive_of_starting hstarting)⟩

theorem inv_initial (registry : NodeRegistry) : Inv (initial registry) := by
  have halive : ∀ id, ¬ (initial registry).Alive id := by
    rintro id ((hlive | ⟨pid, hw⟩ | ⟨m, monitor, hm, -⟩) | ⟨k, ids, hk, -⟩)
    · rcases hlive with hlive | hlive <;> cases hlive
    · cases hw
    · cases hm
    · cases hk
  exact ⟨fun id hid => absurd hid (halive id), nofun, nofun, nofun, nofun⟩

theorem getElem?_setHandler (h : (s.setHandler k handler).handlers[j]? = some handler') :
    j = k ∧ handler' = handler ∨ s.handlers[j]? = some handler' := by
  rw [setHandler] at h
  by_cases heq : j = k
  · subst heq
    cases hj : s.handlers[j]? with
    | none =>
      rw [List.getElem?_set_self', hj] at h
      cases h
    | some old =>
      rw [List.getElem?_set_self', hj] at h
      exact Or.inl ⟨rfl, (Option.some.inj h).symm⟩
  · rw [List.getElem?_set_ne (Ne.symm heq)] at h
    exact Or.inr h

/-- What changes neither the registry nor its copy, and brings no node to life. -/
theorem Inv.mono (h : Inv s) (hfile : s'.file = s.file) (hregistry : s'.registry = s.registry)
    (hlock : s'.registryLock = s.registryLock) (halive : ∀ id, s'.Alive id → s.Alive id)
    (hstarting : ∀ id, s'.tasks.sup.status id ≠ some .starting)
    (hhandlers : ∀ (j : ℕ) (handler : Handler), s'.handlers[j]? = some handler →
      s.handlers[j]? = some handler ∨ handler.Harmless) : Inv s' where
  registered id hid := by
    rw [hfile, hregistry]
    exact h.registered id (halive id hid)
  fresh k r hk id hid := by
    rcases hhandlers k _ hk with hk | hharmless
    · exact h.fresh k r hk id (halive id hid)
    · exact hharmless.elim
  locked k fresh hk := by
    rcases hhandlers k _ hk with hk | hharmless
    · exact hlock.trans (h.locked k fresh hk)
    · exact hharmless.elim
  mutating k op id hk hop hid := by
    rcases hhandlers k _ hk with hk | hharmless
    · exact h.mutating k op id hk hop (halive id hid)
    · exact hharmless.elim
  starting := hstarting

theorem alive_setHandler (hstarts : ∀ id ∈ handler.starts, s.Alive id)
    (hid : (s.setHandler k handler).Alive id) : s.Alive id := by
  rcases hid with hid | ⟨j, ids, hj, hmem⟩
  · exact Or.inl hid
  · rcases getElem?_setHandler hj with ⟨-, rfl⟩ | hj
    · exact hstarts id hmem
    · exact Or.inr ⟨j, ids, hj, hmem⟩

theorem Inv.setHandler (h : Inv s) (k : ℕ) (handler : Handler) (hharmless : handler.Harmless)
    (hstarts : ∀ id ∈ handler.starts, s.Alive id) : Inv (s.setHandler k handler) := by
  refine h.mono rfl rfl rfl (fun id => alive_setHandler hstarts) h.starting fun j handler' hj => ?_
  rcases getElem?_setHandler hj with ⟨-, rfl⟩ | hj
  · exact Or.inr hharmless
  · exact Or.inl hj

theorem Inv.begin (h : Inv s) (request : Request) :
    Inv { s with handlers := s.handlers ++ [.waiting request] } := by
  have hhandlers : ∀ (j : ℕ) (handler : Handler),
      (s.handlers ++ [.waiting request])[j]? = some handler →
        s.handlers[j]? = some handler ∨ handler = .waiting request := by
    intro j handler hj
    rcases getElem?_concat_eq_some.1 hj with hj | ⟨-, rfl⟩
    · exact Or.inl hj
    · exact Or.inr rfl
  refine h.mono rfl rfl rfl ?_ h.starting fun j handler hj => ?_
  · rintro id (hid | ⟨j, ids, hj, hmem⟩)
    · exact Or.inl hid
    · rcases hhandlers j _ hj with hj | hj
      · exact Or.inr ⟨j, ids, hj, hmem⟩
      · cases hj
  · rcases hhandlers j _ hj with hj | rfl
    · exact Or.inl hj
    · exact Or.inr trivial

/-- A step of the supervisor or of a monitor. -/
theorem Inv.concerns {nodeId : ℕ} {tasks : Tasks} (h : Inv s)
    (hconcerns : Tasks.Concerns s.tasks tasks nodeId) : Inv { s with tasks := tasks } := by
  refine h.mono rfl rfl rfl ?_ (hconcerns.status_ne_starting h.starting) fun _ _ hj => Or.inl hj
  rintro id (hid | hid)
  · exact Or.inl (hconcerns.alive_of hid)
  · exact Or.inr hid

/-! ## The first lock -/

theorem enter_starting {ids : List ℕ} (h : s.enter request = some (.starting ids)) :
    s.registryLock = none ∧ ∀ id ∈ ids, id < 2 ^ 32 ∧ (s.registry.nodes id).isSome := by
  cases request with
  | addNodes opts defaultDir version => cases h
  | deleteNode id => simp only [enter] at h; split_ifs at h <;> cases h
  | stopNode id => simp only [enter] at h; split_ifs at h <;> cases h
  | stopAll => simp only [enter] at h; split_ifs at h; cases h
  | reset => simp only [enter] at h; split_ifs at h <;> cases h
  | startNode id =>
    simp only [enter] at h
    split_ifs at h with hlock hsome
    · cases h
      refine ⟨by simpa using hlock, fun i hi => ?_⟩
      obtain rfl := List.mem_singleton.1 hi
      exact ⟨id.toNat_lt, hsome⟩
    · cases h
  | startAll =>
    simp only [enter] at h
    split_ifs at h with hlock
    cases h
    exact ⟨by simpa using hlock, fun i hi => NodeRegistry.mem_list.1 hi⟩

/-- The check that no node is running. -/
theorem enter_mutating {op : RegistryOp} (h : s.enter request = some (.mutating op))
    (hstarting : ∀ id, s.tasks.sup.status id ≠ some .starting) (hid : id < 2 ^ 32)
    (hop : op.Removes id) : ¬ s.tasks.sup.Live id := by
  cases request with
  | addNodes opts defaultDir version => cases h; exact hop.elim
  | startNode id => simp only [enter] at h; split_ifs at h <;> cases h
  | startAll => simp only [enter] at h; split_ifs at h; cases h
  | stopNode id => simp only [enter] at h; split_ifs at h <;> cases h
  | stopAll => simp only [enter] at h; split_ifs at h; cases h
  | deleteNode nodeId =>
    simp only [enter] at h
    split_ifs at h with hw hrunning
    · cases h
    · cases h
      obtain rfl : nodeId.toNat = id := hop
      rintro (hlive | hlive)
      · exact hrunning (Supervisor.isRunning_of_status hlive)
      · exact hstarting _ hlive
  | reset =>
    simp only [enter] at h
    split_ifs at h with hw hrunning
    · cases h
    · cases h
      exact fun hlive => hrunning (Supervisor.nodeCounts_pos hid hlive)

theorem enter_refreshed {fresh : Option NodeRegistry} : s.enter request ≠ some (.refreshed fresh) := by
  intro h
  cases request with
  | addNodes opts defaultDir version => cases h
  | _ => simp only [enter] at h; split_ifs at h <;> cases h

theorem Inv.enter (h : Inv s) (hnext : s.enter request = some handler)
    (hunopposed : s.Unopposed handler) : Inv (s.setHandler k handler) := by
  cases handler with
  | refreshed fresh => exact absurd hnext enter_refreshed
  | starting ids =>
    obtain ⟨hlock, hids⟩ := enter_starting hnext
    have halive : ∀ id, (s.setHandler k (.starting ids)).Alive id → s.Alive id ∨ id ∈ ids := by
      rintro id (hid | ⟨j, ids', hj, hmem⟩)
      · exact Or.inl (Or.inl hid)
      · rcases getElem?_setHandler hj with ⟨-, heq⟩ | hj
        · rw [Handler.starting.inj heq] at hmem
          exact Or.inr hmem
        · exact Or.inl (Or.inr ⟨j, ids', hj, hmem⟩)
    refine ⟨fun id hid => ?_, fun j r hj => ?_, fun j fresh hj => ?_, fun j op id hj hop hid => ?_,
      h.starting⟩
    · rcases halive id hid with hid | hid
      · exact h.registered id hid
      · exact ⟨(hids id hid).1, (hunopposed id hid).1, (hids id hid).2⟩
    · -- nobody has the lock of the copy
      rcases getElem?_setHandler hj with ⟨-, heq⟩ | hj
      · cases heq
      · have := h.locked j _ hj
        rw [hlock] at this
        cases this
    · rcases getElem?_setHandler hj with ⟨-, heq⟩ | hj
      · cases heq
      · exact h.locked j fresh hj
    · rcases getElem?_setHandler hj with ⟨-, heq⟩ | hj
      · cases heq
      · rcases halive id hid with hid | hid
        · exact h.mutating j op id hj hop hid
        · exact (hunopposed id hid).2 j op hj hop
  | mutating op =>
    have halive : ∀ id, (s.setHandler k (.mutating op)).Alive id → s.Alive id :=
      fun id => alive_setHandler nofun
    refine ⟨fun id hid => h.registered id (halive id hid), fun j r hj id hid => ?_,
      fun j fresh hj => ?_, fun j op' id hj hop hid => ?_, h.starting⟩
    · rcases getElem?_setHandler hj with ⟨-, heq⟩ | hj
      · cases heq
      · exact h.fresh j r hj id (halive id hid)
    · rcases getElem?_setHandler hj with ⟨-, heq⟩ | hj
      · cases heq
      · exact h.locked j fresh hj
    · have hold := halive id hid
      rcases getElem?_setHandler hj with ⟨-, heq⟩ | hj
      · obtain rfl := Handler.mutating.inj heq
        obtain ⟨hu32, hfile, -⟩ := h.registered id hold
        obtain ⟨hstarting, hrestarting⟩ := hunopposed id hop hfile
        have hlive := enter_mutating hnext h.starting hu32 hop
        rcases hold with (hold | hold | hold) | hold
        · exact hlive hold
        · exact hstarting (Or.inr hold)
        · exact hrestarting hold
        · exact hstarting (Or.inl hold)
      · exact h.mutating j op' id hj hop hold
  | waiting request => exact h.setHandler k _ trivial nofun
  | refreshing => exact h.setHandler k _ trivial nofun
  | stopping ids => exact h.setHandler k _ trivial nofun
  | done => exact h.setHandler k _ trivial nofun

/-! ## The other steps of a handler -/

theorem Inv.commit {op : RegistryOp} (h : Inv s) (hk : s.handlers[k]? = some (.mutating op)) :
    Inv (s.commit k op) := by
  rw [AppState.commit]
  split
  · rename_i file hfile
    have hbase := h.setHandler k .refreshing trivial nofun
    refine
      { hbase with
        registered := fun id hid => ?_ }
    have hold : s.Alive id := @alive_setHandler s k id .refreshing nofun hid
    obtain ⟨hu32, hin, hcopy⟩ := h.registered id hold
    exact ⟨hu32, RegistryOp.isSome_apply hfile (fun hop => h.mutating k op id hk hop hold) hin, hcopy⟩
  · exact h.setHandler k _ trivial nofun

theorem Inv.refresh {readable : Bool} (h : Inv s) (hlock : s.registryLock = none) :
    Inv { s.setHandler k (.refreshed (if readable then some s.file else none)) with
      registryLock := some k } := by
  set handler := Handler.refreshed (if readable then some s.file else none) with hhandler
  have halive : ∀ id, (s.setHandler k handler).Alive id → s.Alive id :=
    fun id => alive_setHandler nofun
  refine ⟨fun id hid => h.registered id (halive id hid), fun j r hj id hid => ?_,
    fun j fresh hj => ?_, fun j op id hj hop hid => ?_, h.starting⟩
  · rcases getElem?_setHandler hj with ⟨-, heq⟩ | hj
    · have hread := Handler.refreshed.inj (heq.trans hhandler)
      split_ifs at hread
      rw [Option.some.inj hread]
      exact (h.registered id (halive id hid)).2.1
    · exact h.fresh j r hj id (halive id hid)
  · rcases getElem?_setHandler hj with ⟨rfl, -⟩ | hj
    · rfl
    · have := h.locked j fresh hj
      rw [hlock] at this
      cases this
  · rcases getElem?_setHandler hj with ⟨-, heq⟩ | hj
    · rw [hhandler] at heq
      cases heq
    · exact h.mutating j op id hj hop (halive id hid)

theorem Inv.refreshDone {fresh : Option NodeRegistry} (h : Inv s)
    (hk : s.handlers[k]? = some (.refreshed fresh)) : Inv (s.refreshDone k fresh) := by
  have halive : ∀ id, (s.refreshDone k fresh).Alive id → s.Alive id :=
    fun id => @alive_setHandler s k id .done nofun
  -- no other handler has the lock
  have hother : ∀ (j : ℕ) (fresh' : Option NodeRegistry),
      (s.refreshDone k fresh).handlers[j]? ≠ some (.refreshed fresh') := by
    intro j fresh' hj
    by_cases heq : j = k
    · subst heq
      have hset : (s.handlers.set j .done)[j]? = some .done :=
        List.getElem?_set_self (List.getElem?_eq_some_iff.1 hk).1
      cases hset.symm.trans hj
    · have hj : s.handlers[j]? = some (.refreshed fresh') := by
        rwa [AppState.refreshDone, AppState.setHandler, List.getElem?_set_ne (Ne.symm heq)] at hj
      exact heq (Option.some.inj ((h.locked j _ hj).symm.trans (h.locked k _ hk)))
  refine ⟨fun id hid => ?_, fun j r hj => absurd hj (hother j _), fun j r hj => absurd hj (hother j _),
    fun j op id hj hop hid => ?_, h.starting⟩
  · obtain ⟨hu32, hfile, hcopy⟩ := h.registered id (halive id hid)
    refine ⟨hu32, hfile, ?_⟩
    cases fresh with
    | none => exact hcopy
    | some r => exact h.fresh k r hk id (halive id hid)
  · rcases getElem?_setHandler hj with ⟨-, heq⟩ | hj
    · cases heq
    · exact h.mutating j op id hj hop (halive id hid)

theorem Inv.startNext {nodeId : ℕ} {ids : List ℕ} (h : Inv s)
    (hk : s.handlers[k]? = some (.starting (nodeId :: ids))) :
    Inv { s.setHandler k (.starting ids) with tasks := s.tasks.startNode nodeId } := by
  have hsup : (s.tasks.startNode nodeId).sup = s.tasks.sup := by
    rw [Tasks.startNode]
    split_ifs <;> rfl
  have hmonitors : (s.tasks.startNode nodeId).monitors = s.tasks.monitors := by
    rw [Tasks.startNode]
    split_ifs <;> rfl
  have hwriter : ∀ id pid, (s.tasks.startNode nodeId).writer = some (.starting id pid) →
      id = nodeId ∨ s.tasks.writer = some (.starting id pid) := by
    intro id pid hw
    rw [Tasks.startNode] at hw
    split_ifs at hw
    · exact Or.inr hw
    · cases hw
      exact Or.inl rfl
  refine h.mono rfl rfl rfl ?_ (fun id => by rw [hsup]; exact h.starting id) fun j handler hj => ?_
  · rintro id ((hlive | ⟨pid, hw⟩ | hrestarting) | hstarts)
    · rw [hsup] at hlive
      exact Or.inl (Or.inl hlive)
    · rcases hwriter id pid hw with rfl | hw
      · exact Or.inr ⟨k, _, hk, List.mem_cons_self⟩
      · exact Or.inl (Or.inr (Or.inl ⟨pid, hw⟩))
    · rw [Tasks.Restarting, hsup, hmonitors] at hrestarting
      exact Or.inl (Or.inr (Or.inr hrestarting))
    · refine @alive_setHandler s k id (.starting ids) (fun i hi => ?_) (Or.inr hstarts)
      exact Or.inr ⟨k, _, hk, List.mem_cons_of_mem _ hi⟩
  · rcases getElem?_setHandler hj with ⟨-, rfl⟩ | hj
    · exact Or.inr trivial
    · exact Or.inl hj

/-! ## Runs -/

theorem Inv.step {a : AppAction} (h : Inv s) (hcareful : s.Careful a) (hstep : s.step a = some s') :
    Inv s' := by
  cases a with
  | begin request =>
    obtain rfl := Option.some.inj hstep
    exact h.begin request
  | enter k =>
    simp only [AppState.step] at hstep
    split at hstep
    · rename_i request hk
      obtain ⟨handler, hnext, rfl⟩ := Option.map_eq_some_iff.1 hstep
      exact h.enter hnext (hcareful request handler hk hnext)
    · cases hstep
  | commit k =>
    simp only [AppState.step] at hstep
    split at hstep
    · obtain rfl := Option.some.inj hstep
      exact h.commit (by assumption)
    · cases hstep
  | fail k =>
    simp only [AppState.step] at hstep
    split at hstep
    · obtain rfl := Option.some.inj hstep
      exact h.setHandler k _ trivial nofun
    · cases hstep
  | refresh k readable =>
    simp only [AppState.step] at hstep
    split at hstep
    · obtain rfl := Option.some.inj hstep
      exact h.refresh (by assumption)
    · cases hstep
  | refreshDone k =>
    simp only [AppState.step] at hstep
    split at hstep
    · obtain rfl := Option.some.inj hstep
      exact h.refreshDone (by assumption)
    · cases hstep
  | startNext k =>
    simp only [AppState.step] at hstep
    split at hstep
    · obtain rfl := Option.some.inj hstep
      exact h.startNext (by assumption)
    · cases hstep
  | stopNext k =>
    simp only [AppState.step] at hstep
    split at hstep
    · rename_i id ids _ _
      obtain rfl := Option.some.inj hstep
      exact (h.concerns (Tasks.concerns_stopNode s.tasks id)).setHandler k (.stopping ids) trivial nofun
    · cases hstep
  | drop k =>
    simp only [AppState.step] at hstep
    split at hstep
    case h_5 => cases hstep
    all_goals
      obtain rfl := Option.some.inj hstep
      exact h.setHandler k _ trivial nofun
  | task action =>
    have htask : ∀ tasks, s.tasks.step action = some tasks → (∀ id, action ≠ .startNode id) →
        Inv { s with tasks := tasks } := by
      intro tasks htasks hstart
      obtain ⟨nodeId, hconcerns⟩ := Tasks.concerns_step hstart htasks
      exact h.concerns hconcerns
    simp only [AppState.step, AppState.task] at hstep
    split at hstep
    · cases hstep
    · cases hstep
    · rename_i hstart _
      obtain ⟨tasks, htasks, rfl⟩ := Option.map_eq_some_iff.1 hstep
      exact htask tasks htasks fun id heq => hstart id heq

/-- **No running node is removed**, where no handler goes on against another or a monitor. -/
theorem safe_of_careful {registry : NodeRegistry} {as : List AppAction}
    (h : Trace AppState.step Careful (initial registry) as s) : Safe s :=
  (h.invariant (fun _ _ _ hcareful hi hstep => hi.step hcareful hstep)
    (inv_initial registry)).safe

theorem trace_of_runs {as : List AppAction} (hfree : ∀ a ∈ as, ∀ k, a ≠ .enter k)
    (h : Runs step s as s') : Trace step Careful s as s' := by
  induction h with
  | nil => exact .nil _
  | @cons s a s₁ as s₂ _ hstep _ ih =>
    refine .cons ?_ hstep (ih fun a ha => hfree a (List.mem_cons_of_mem _ ha))
    cases a with
    | enter k => exact absurd rfl (hfree _ List.mem_cons_self k)
    | _ => trivial

theorem trace_enter (k : ℕ) (request : Request) (handler : Handler)
    (hk : s.handlers[k]? = some (.waiting request))
    (hnext : s.enter request = some handler) (hunopposed : s.Unopposed handler) :
    Trace step Careful s [.enter k] (s.setHandler k handler) := by
  refine .cons (fun request' handler' hk' hnext' => ?_) ?_ (.nil _)
  · obtain rfl := Handler.waiting.inj (Option.some.inj (hk'.symm.trans hk))
    obtain rfl := Option.some.inj (hnext'.symm.trans hnext)
    exact hunopposed
  · simp only [step, hk, hnext]
    rfl

/-- The state that the actions lead to, from a daemon without nodes. -/
def after (as : List AppAction) : AppState :=
  (as.foldlM step (initial .empty)).getD (initial .empty)

def addOne : AddNodeOpts := ⟨1, "", none, none, none, none, 1, [], []⟩

/-- A node is added, started, stopped and deleted. -/
def deleteStopped : List AppAction :=
  [.begin (.addNodes addOne ["data"] "0.1.0"), .enter 0,
    .commit 0, .refresh 0 true, .refreshDone 0,
    .begin (.startNode 1), .enter 1, .startNext 1, .task (.startSpawned (some 7)),
    .task (.startDone .timeout 0),
    .begin (.stopNode 1), .enter 2, .stopNext 2, .task (.exit 7 none), .task .stopDone,
    .begin (.deleteNode 1), .enter 3, .commit 3]

theorem unopposed_addNodes {opts : AddNodeOpts} {defaultDir : Path} {version : String} :
    s.Unopposed (.mutating (.addNodes opts defaultDir version)) :=
  fun _ h => h.elim

theorem unopposed_starting : (after (deleteStopped.take 6)).Unopposed (.starting [1]) := by
  intro id hid
  obtain rfl := List.mem_singleton.1 hid
  refine ⟨rfl, fun k op hk => ?_⟩
  rcases k with _ | _ | k <;> cases hk

theorem unopposed_mutating :
    (after (deleteStopped.take 16)).Unopposed (.mutating (.removeNode 1)) := by
  rintro id rfl -
  constructor
  · rintro (⟨k, ids, hk, hmem⟩ | ⟨pid, hw⟩)
    · rcases k with _ | _ | _ | _ | k <;> cases hk
      cases hmem
    · cases hw
  · rintro ⟨m, monitor, hm, -, hrestarts⟩
    have hm : Function.update (fun _ => none) 7 (some ⟨1, .waiting 7⟩) m = some monitor := hm
    by_cases heq : m = 7
    · rw [heq, Function.update_self] at hm
      obtain rfl := Option.some.inj hm
      exact hrestarts.1 rfl
    · rw [Function.update_of_ne heq] at hm
      cases hm

theorem safe_of_careful_deleted :
    ∃ as s, AppAction.enter 3 ∈ as ∧ (s.file.nodes 1).isSome = false ∧
      Trace step Careful (initial .empty) as s ∧ Safe s := by
  have hrun : ∀ i j, (∀ a ∈ (deleteStopped.take j).drop i, ∀ k, a ≠ .enter k) →
      Runs step (after (deleteStopped.take i)) ((deleteStopped.take j).drop i)
        (after (deleteStopped.take j)) →
      Trace step Careful (after (deleteStopped.take i)) ((deleteStopped.take j).drop i)
        (after (deleteStopped.take j)) := fun i j => trace_of_runs
  have hadd := (hrun 0 1 (by simp [deleteStopped]) (runs_iff.2 rfl)).append
    (trace_enter 0 (.addNodes addOne ["data"] "0.1.0") (.mutating (.addNodes addOne ["data"] "0.1.0"))
      rfl rfl unopposed_addNodes)
  have hstart := (hrun 2 6 (by simp [deleteStopped]) (runs_iff.2 rfl)).append
    (trace_enter 1 (.startNode 1) (.starting [1]) rfl rfl unopposed_starting)
  have hstop := (hrun 7 11 (by simp [deleteStopped]) (runs_iff.2 rfl)).append
    (trace_enter 2 (.stopNode 1) (.stopping [1]) rfl rfl trivial)
  have hdelete := (hrun 12 16 (by simp [deleteStopped]) (runs_iff.2 rfl)).append
    (trace_enter 3 (.deleteNode 1) (.mutating (.removeNode 1)) rfl rfl unopposed_mutating)
  have hend := hrun 17 18 (by simp [deleteStopped]) (runs_iff.2 rfl)
  have htrace := hadd.append (hstart.append (hstop.append (hdelete.append hend)))
  exact ⟨_, _, by simp [deleteStopped], rfl, htrace, safe_of_careful htrace⟩

/-- The node is started while the handler that has found it stopped removes it. -/
def deleteStarting : List AppAction :=
  [.begin (.addNodes addOne ["data"] "0.1.0"), .enter 0,
    .commit 0, .refresh 0 true, .refreshDone 0,
    .begin (.startNode 1), .begin (.deleteNode 1), .enter 1, .enter 2, .commit 2, .refresh 2 true,
    .refreshDone 2, .startNext 1, .task (.startSpawned (some 7)), .task (.startDone .timeout 0)]

theorem not_safe : ¬ ∀ registry as s, Runs step (initial registry) as s → Safe s := by
  intro h
  have hsafe := h .empty deleteStarting (after deleteStarting) (runs_iff.2 rfl)
  have hin := (hsafe.registered 1 (Or.inl rfl)).1
  cases hin

end AppState

end Autonomi.Daemon
