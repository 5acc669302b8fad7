/-
  The supervisor of the node processes and its bookkeeping
  (`ant-core/src/node/daemon/supervisor.rs`).
-/
import Mathlib

namespace Autonomi.Daemon

/-- A duration of so many seconds, in nanoseconds. -/
def secs (n : ℕ) : ℕ := n * 1000000000

def maxCrashesBeforeErrored : ℕ := 5

def crashWindow : ℕ := secs 300

def stableDuration : ℕ := secs 300

def maxBackoff : ℕ := secs 60

inductive NodeStatus where
  | stopped
  | starting
  | running
  | stopping
  | errored
  deriving DecidableEq, Repr

structure NodeRuntime where
  status : NodeStatus
  pid : Option ℕ
  startedAt : Option ℕ
  restartCount : ℕ
  firstCrashAt : Option ℕ
  deriving DecidableEq, Repr

structure Supervisor where
  nodeStates : ℕ → Option NodeRuntime

inductive Error where
  | nodeAlreadyRunning (nodeId : ℕ)
  | nodeNotFound (nodeId : ℕ)
  | nodeNotRunning (nodeId : ℕ)
  | processSpawn (message : String)
  | invalidRewardsAddress (message : String)
  | invalidNodeCount (count max : ℕ)
  | portRangeMismatch (rangeLen count : ℕ)
  | io (message : String)
  deriving DecidableEq, Repr

/-- What becomes of an attempt to spawn a node process. -/
inductive Spawned where
  | failed (message : String)
  | noPid
  | exited (detail : String)
  | running (pid : ℕ)
  deriving DecidableEq, Repr

/-! ## Crashes -/

namespace NodeRuntime

def running (pid now : ℕ) : NodeRuntime := ⟨.running, some pid, some now, 0, none⟩

def errored : NodeRuntime := ⟨.errored, none, none, 0, none⟩

/-- The counter starts again after a run that was stable long enough. -/
def resetIfStable (state : NodeRuntime) (now : ℕ) : NodeRuntime :=
  match state.startedAt with
  | some startedAt =>
    if now - startedAt ≥ stableDuration then
      { state with restartCount := 0, firstCrashAt := none } else state
  | none => state

def countCrash (state : NodeRuntime) (now : ℕ) : NodeRuntime :=
  { state with
    restartCount := (state.restartCount + 1) % 2 ^ 32
    firstCrashAt := if state.firstCrashAt.isNone then some now else state.firstCrashAt }

end NodeRuntime

/-- The exponential backoff; `attempt - 1` wraps. -/
def backoffOf (attempt : ℕ) : ℕ :=
  min (secs (1 <<< min ((attempt + (2 ^ 32 - 1)) % 2 ^ 32) 5)) maxBackoff

namespace Supervisor

def new : Supervisor := ⟨fun _ => none⟩

def insert (sup : Supervisor) (nodeId : ℕ) (state : NodeRuntime) : Supervisor :=
  ⟨Function.update sup.nodeStates nodeId (some state)⟩

@[simp] theorem insert_self (sup : Supervisor) (nodeId : ℕ) (state : NodeRuntime) :
    (sup.insert nodeId state).nodeStates nodeId = some state := by
  simp [insert]

theorem insert_of_ne (sup : Supervisor) {nodeId id : ℕ} (state : NodeRuntime) (h : id ≠ nodeId) :
    (sup.insert nodeId state).nodeStates id = sup.nodeStates id := by
  simp [insert, h]

def nodeStatus (sup : Supervisor) (nodeId : ℕ) : Except Error NodeStatus :=
  match sup.nodeStates nodeId with
  | some state => .ok state.status
  | none => .error (.nodeNotFound nodeId)

def nodePid (sup : Supervisor) (nodeId : ℕ) : Option ℕ :=
  (sup.nodeStates nodeId).bind NodeRuntime.pid

def isRunning (sup : Supervisor) (nodeId : ℕ) : Bool :=
  (sup.nodeStates nodeId).any fun state => state.status = .running

/-- What `start_node` makes of the process that it spawns, and of its first second. -/
def startNode (sup : Supervisor) (nodeId : ℕ) (spawned : Spawned) (now : ℕ) :
    Supervisor × Except Error ℕ :=
  if sup.isRunning nodeId then (sup, .error (.nodeAlreadyRunning nodeId)) else
    match spawned with
    | .failed message => (sup, .error (.processSpawn message))
    | .noPid => (sup, .error (.processSpawn "Failed to get PID from spawned process"))
    | .exited detail =>
      (sup.insert nodeId .errored,
        .error (.processSpawn s!"Node {nodeId} exited immediately: {detail}"))
    | .running pid => (sup.insert nodeId (.running pid now), .ok pid)

/-- `stop_node` up to the kill, with the pid to kill. -/
def beginStop (sup : Supervisor) (nodeId : ℕ) : Except Error (Supervisor × Option ℕ) :=
  match sup.nodeStates nodeId with
  | none => .error (.nodeNotFound nodeId)
  | some state =>
    if state.status ≠ .running then .error (.nodeNotRunning nodeId)
    else .ok (sup.insert nodeId { state with status := .stopping }, state.pid)

/-- `stop_node` after the kill. -/
def endStop (sup : Supervisor) (nodeId : ℕ) : Supervisor :=
  match sup.nodeStates nodeId with
  | none => sup
  | some state =>
    sup.insert nodeId { state with status := .stopped, pid := none, startedAt := none }

def updateState (sup : Supervisor) (nodeId : ℕ) (status : NodeStatus) (pid : Option ℕ) (now : ℕ) :
    Supervisor :=
  match sup.nodeStates nodeId with
  | none => sup
  | some state =>
    sup.insert nodeId
      { state with
        status := status
        pid := pid
        startedAt := if status = .running then some now else state.startedAt }

/-- Whether the node is to be restarted, the number of the attempt, and how long to wait before it.
    Its reads of the clock are one. -/
def recordCrash (sup : Supervisor) (nodeId now : ℕ) : Supervisor × Bool × ℕ × ℕ :=
  match sup.nodeStates nodeId with
  | none => (sup, false, 0, 0)
  | some state =>
    let state := (state.resetIfStable now).countCrash now
    let attempt := state.restartCount
    if attempt ≥ maxCrashesBeforeErrored ∧
        (state.firstCrashAt.any fun firstCrash => now - firstCrash < crashWindow) then
      (sup.insert nodeId { state with status := .errored, pid := none, startedAt := none },
        false, attempt, 0)
    else (sup.insert nodeId state, true, attempt, backoffOf attempt)

end Supervisor

end Autonomi.Daemon
