/-
  The calls of `start_node` and `stop_node`, the monitors and the node processes, interleaved.
-/
import Autonomi.Daemon.Supervisor
import Autonomi.Lib.Trace

namespace Autonomi.Daemon

open Lib

/-- A node process, with its exit code once it has exited; one that a signal ends has no code. -/
structure Process where
  nodeId : ℕ
  exit : Option (Option ℤ)
  deriving DecidableEq

def Process.Live (p : Process) : Prop := p.exit = none

instance (p : Process) : Decidable p.Live := inferInstanceAs (Decidable (p.exit = none))

/-- Where a task of `monitor_node` is. -/
inductive MonitorPhase where
  | waiting (pid : ℕ)
  /-- The process has exited, and the status is to be checked. -/
  | observed (pid : ℕ) (exitCode : Option ℤ)
  | cleanExit (pid : ℕ)
  | crashed (pid : ℕ)
  | sleeping (backoff : ℕ)
  /-- Another process has been spawned, or not. -/
  | spawned (pid : Option ℕ)
  deriving DecidableEq

structure Monitor where
  nodeId : ℕ
  phase : MonitorPhase
  deriving DecidableEq

/-- Who holds the write lock of the supervisor across an `await`. -/
inductive Writer where
  /-- `start_node`, before and after it has spawned a process. -/
  | starting (nodeId : ℕ) (pid : Option ℕ)
  /-- `stop_node`, with the pid to kill. -/
  | stopping (nodeId : ℕ) (pid : Option ℕ)
  deriving DecidableEq

/-- The process that is awaited. -/
def Writer.pid : Writer → Option ℕ
  | .starting _ pid | .stopping _ pid => pid

/-- What `start_node` sees of the first second of its process. -/
inductive HealthCheck where
  | exited
  /-- The process cannot be waited for. -/
  | failed
  | timeout
  deriving DecidableEq

/-- `stopped` has the nodes for which `stop_node` has returned `Ok` and `start_node` has not been
    called since, and `recorded` the processes whose exit a monitor has recorded. -/
structure Tasks where
  sup : Supervisor
  procs : ℕ → Option Process
  monitors : ℕ → Option Monitor
  writer : Option Writer
  stopped : ℕ → Bool
  recorded : ℕ → Bool

inductive TaskAction where
  | startNode (nodeId : ℕ)
  | startSpawned (pid : Option ℕ)
  | startDone (health : HealthCheck) (now : ℕ)
  | stopNode (nodeId : ℕ)
  | stopKill (exitCode : Option ℤ)
  | stopDone
  | exit (pid : ℕ) (exitCode : Option ℤ)
  /-- The steps of a monitor. -/
  | observe (monitor : ℕ)
  | check (monitor : ℕ)
  | recordClean (monitor now : ℕ)
  | recordCrash (monitor now : ℕ)
  | respawn (monitor : ℕ) (pid : Option ℕ)
  | recordRestart (monitor now : ℕ)

namespace Tasks

def initial : Tasks := ⟨.new, fun _ => none, fun _ => none, none, fun _ => false, fun _ => false⟩

/-- The process `pid` exits, if it has not. -/
def exit (s : Tasks) (pid : ℕ) (exitCode : Option ℤ) : Option Tasks :=
  match s.procs pid with
  | some ⟨nodeId, none⟩ =>
    some { s with procs := Function.update s.procs pid (some ⟨nodeId, some exitCode⟩) }
  | _ => none

/-- A new process, under a pid that has not been used. -/
def spawn (s : Tasks) (nodeId pid : ℕ) : Option Tasks :=
  match s.procs pid with
  | some _ => none
  | none => some { s with procs := Function.update s.procs pid (some ⟨nodeId, none⟩) }

def setMonitor (s : Tasks) (m : ℕ) (monitor : Option Monitor) : Tasks :=
  { s with monitors := Function.update s.monitors m monitor }

@[simp] theorem monitors_setMonitor_self (s : Tasks) (m : ℕ) (monitor : Option Monitor) :
    (s.setMonitor m monitor).monitors m = monitor :=
  Function.update_self _ _ _

theorem monitors_setMonitor_of_ne {s : Tasks} {m m' : ℕ} (monitor : Option Monitor) (h : m' ≠ m) :
    (s.setMonitor m monitor).monitors m' = s.monitors m' :=
  Function.update_of_ne h _ _

def startNode (s : Tasks) (nodeId : ℕ) : Tasks :=
  let s := { s with stopped := Function.update s.stopped nodeId false }
  if s.sup.isRunning nodeId then s else { s with writer := some (.starting nodeId none) }

def startSpawned (s : Tasks) (nodeId : ℕ) : Option ℕ → Option Tasks
  | none => some { s with writer := none }
  | some pid =>
    (s.spawn nodeId pid).map fun s => { s with writer := some (.starting nodeId (some pid)) }

def startDone (s : Tasks) (nodeId pid now : ℕ) : HealthCheck → Option Tasks
  | .exited =>
    match s.procs pid with
    | some ⟨_, some _⟩ =>
      some { s with sup := (s.sup.startNode nodeId (.exited "exit code") now).1, writer := none }
    | _ => none
  | .failed => some { s with writer := none }
  | .timeout =>
    some ({ s with sup := (s.sup.startNode nodeId (.running pid) now).1, writer := none }.setMonitor
      pid (some ⟨nodeId, .waiting pid⟩))

def stopNode (s : Tasks) (nodeId : ℕ) : Tasks :=
  match s.sup.beginStop nodeId with
  | .ok (sup, pid) => { s with sup := sup, writer := some (.stopping nodeId pid) }
  | .error _ => s

/-- After `graceful_kill`, which does not wait for ever. -/
def stopDone (s : Tasks) (nodeId : ℕ) : Tasks :=
  { s with
    sup := s.sup.endStop nodeId
    writer := none
    stopped := Function.update s.stopped nodeId true }

def observe (s : Tasks) (m nodeId pid : ℕ) : Option Tasks :=
  match s.procs pid with
  | some ⟨_, some exitCode⟩ => some (s.setMonitor m (some ⟨nodeId, .observed pid exitCode⟩))
  | _ => none

def check (s : Tasks) (m nodeId pid : ℕ) (exitCode : Option ℤ) : Tasks :=
  match s.sup.nodeStatus nodeId with
  | .ok .stopped | .ok .stopping => s.setMonitor m none
  | _ =>
    s.setMonitor m (some ⟨nodeId, if exitCode = some 0 then .cleanExit pid else .crashed pid⟩)

def recordClean (s : Tasks) (m nodeId pid now : ℕ) : Tasks :=
  { s with
    sup := s.sup.updateState nodeId .stopped none now
    recorded := Function.update s.recorded pid true }.setMonitor m none

def recordCrash (s : Tasks) (m nodeId pid now : ℕ) : Tasks :=
  match s.sup.recordCrash nodeId now with
  | (sup, shouldRestart, _, backoff) =>
    { s with
      sup := sup
      recorded := Function.update s.recorded pid true }.setMonitor m
        (if shouldRestart then some ⟨nodeId, .sleeping backoff⟩ else none)

def respawn (s : Tasks) (m nodeId : ℕ) : Option ℕ → Option Tasks
  | none => some (s.setMonitor m (some ⟨nodeId, .spawned none⟩))
  | some pid =>
    (s.spawn nodeId pid).map fun s => s.setMonitor m (some ⟨nodeId, .spawned (some pid)⟩)

def recordRestart (s : Tasks) (m nodeId now : ℕ) : Option ℕ → Tasks
  | some pid =>
    { s with sup := s.sup.updateState nodeId .running (some pid) now }.setMonitor m
      (some ⟨nodeId, .waiting pid⟩)
  | none => { s with sup := s.sup.updateState nodeId .errored none now }.setMonitor m none

/-- Only what takes no lock is possible while another holds the write lock. -/
def step (s : Tasks) : TaskAction → Option Tasks
  | .exit pid exitCode => s.exit pid exitCode
  | .startSpawned pid =>
    match s.writer with
    | some (.starting nodeId none) => s.startSpawned nodeId pid
    | _ => none
  | .startDone health now =>
    match s.writer with
    | some (.starting nodeId (some pid)) => s.startDone nodeId pid now health
    | _ => none
  | .stopKill exitCode =>
    match s.writer with
    | some (.stopping _ (some pid)) => s.exit pid exitCode
    | _ => none
  | .stopDone =>
    match s.writer with
    | some (.stopping nodeId _) => some (s.stopDone nodeId)
    | _ => none
  | .observe m =>
    match s.monitors m with
    | some ⟨nodeId, .waiting pid⟩ => s.observe m nodeId pid
    | _ => none
  | .respawn m pid =>
    match s.monitors m with
    | some ⟨nodeId, .sleeping _⟩ => s.respawn m nodeId pid
    | _ => none
  | .startNode nodeId => if s.writer = none then some (s.startNode nodeId) else none
  | .stopNode nodeId => if s.writer = none then some (s.stopNode nodeId) else none
  | .check m =>
    match s.writer, s.monitors m with
    | none, some ⟨nodeId, .observed pid exitCode⟩ => some (s.check m nodeId pid exitCode)
    | _, _ => none
  | .recordClean m now =>
    match s.writer, s.monitors m with
    | none, some ⟨nodeId, .cleanExit pid⟩ => some (s.recordClean m nodeId pid now)
    | _, _ => none
  | .recordCrash m now =>
    match s.writer, s.monitors m with
    | none, some ⟨nodeId, .crashed pid⟩ => some (s.recordCrash m nodeId pid now)
    | _, _ => none
  | .recordRestart m now =>
    match s.writer, s.monitors m with
    | none, some ⟨nodeId, .spawned pid⟩ => some (s.recordRestart m nodeId now pid)
    | _, _ => none

end Tasks

end Autonomi.Daemon
