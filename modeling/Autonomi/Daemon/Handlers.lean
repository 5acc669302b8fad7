/-
  The HTTP handlers of the daemon (`ant-core/src/node/daemon/server.rs`), interleaved with each
  other, with the monitors and with the node processes.

  A handler takes the lock of the supervisor, that of the registry file and
  that of the copy of the registry one after the other; what it does under
  one of them is a step.
-/
import Autonomi.Daemon.Registry
import Autonomi.Daemon.Tasks

namespace Autonomi.Daemon

open Lib

/-- The values of a node id. -/
@[irreducible] def nodeIds : List ℕ := List.range (2 ^ 32)

/-- The ids of the nodes, in order. -/
def NodeRegistry.list (registry : NodeRegistry) : List ℕ :=
  nodeIds.filter fun id => (registry.nodes id).isSome

/-- How many nodes are running, stopped and errored. -/
def Supervisor.nodeCounts (sup : Supervisor) : ℕ × ℕ × ℕ :=
  let states := nodeIds.filterMap sup.nodeStates
  (states.countP fun state => state.status = .running || state.status = .starting,
    states.countP fun state => state.status = .stopped || state.status = .stopping,
    states.countP fun state => state.status = .errored)

inductive Request where
  /-- With the default directory and the version of the binary. -/
  | addNodes (opts : AddNodeOpts) (defaultDir : Path) (version : String)
  | deleteNode (id : UInt32)
  | startNode (id : UInt32)
  | startAll
  | stopNode (id : UInt32)
  | stopAll
  | reset

/-- Where a handler is. -/
inductive Handler where
  | waiting (request : Request)
  /-- The supervisor has been asked, and the registry file is to be changed. -/
  | mutating (op : RegistryOp)
  | refreshing
  /-- It has the lock of the copy and the outcome of `load`. -/
  | refreshed (fresh : Option NodeRegistry)
  /-- The nodes that are still to be started. -/
  | starting (ids : List ℕ)
  | stopping (ids : List ℕ)
  | done

/-- `file` is the registry file, and `registry` the copy; `registryLock` is the handler that has its
    write lock. -/
structure AppState where
  tasks : Tasks
  file : NodeRegistry
  registry : NodeRegistry
  registryLock : Option ℕ
  handlers : List Handler

inductive AppAction where
  | begin (request : Request)
  | enter (k : ℕ)
  /-- The mutation of the registry file, under its lock. -/
  | commit (k : ℕ)
  | fail (k : ℕ)
  /-- The file can be read, or not. -/
  | refresh (k : ℕ) (readable : Bool)
  | refreshDone (k : ℕ)
  | startNext (k : ℕ)
  | stopNext (k : ℕ)
  /-- The request is dropped while it waits for a lock. -/
  | drop (k : ℕ)
  | task (action : TaskAction)

namespace AppState

/-- A daemon that has just been started. -/
def initial (registry : NodeRegistry) : AppState := ⟨.initial, registry, registry, none, []⟩

def setHandler (s : AppState) (k : ℕ) (handler : Handler) : AppState :=
  { s with handlers := s.handlers.set k handler }

/-- The first lock that a handler takes, and what it does under it. -/
def enter (s : AppState) : Request → Option Handler
  | .addNodes opts defaultDir version => some (.mutating (.addNodes opts defaultDir version))
  | .deleteNode id =>
    if s.tasks.writer.isSome then none
    else if s.tasks.sup.isRunning id.toNat then some .done
    else some (.mutating (.removeNode id.toNat))
  | .reset =>
    if s.tasks.writer.isSome then none
    else if s.tasks.sup.nodeCounts.1 > 0 then some .done
    else some (.mutating .reset)
  | .startNode id =>
    if s.registryLock.isSome then none
    else if (s.registry.nodes id.toNat).isSome then some (.starting [id.toNat])
    else some .done
  | .startAll => if s.registryLock.isSome then none else some (.starting s.registry.list)
  | .stopNode id =>
    if s.registryLock.isSome then none
    else if (s.registry.nodes id.toNat).isSome then some (.stopping [id.toNat])
    else some .done
  | .stopAll => if s.registryLock.isSome then none else some (.stopping s.registry.list)

def commit (s : AppState) (k : ℕ) (op : RegistryOp) : AppState :=
  match op.apply s.file with
  | .ok file => { s.setHandler k .refreshing with file := file }
  | .error _ => s.setHandler k .done

def refreshDone (s : AppState) (k : ℕ) (fresh : Option NodeRegistry) : AppState :=
  { s.setHandler k .done with registry := fresh.getD s.registry, registryLock := none }

/-- The calls of `start_node` and `stop_node` are those of the handlers. -/
def task (s : AppState) : TaskAction → Option AppState
  | .startNode _ | .stopNode _ => none
  | action => (s.tasks.step action).map fun tasks => { s with tasks := tasks }

def step (s : AppState) : AppAction → Option AppState
  | .begin request => some { s with handlers := s.handlers ++ [.waiting request] }
  | .enter k =>
    match s.handlers[k]? with
    | some (.waiting request) => (s.enter request).map (s.setHandler k)
    | _ => none
  | .commit k =>
    match s.handlers[k]? with
    | some (.mutating op) => some (s.commit k op)
    | _ => none
  | .fail k =>
    match s.handlers[k]? with
    | some (.mutating _) => some (s.setHandler k .done)
    | _ => none
  | .refresh k readable =>
    match s.handlers[k]?, s.registryLock with
    | some .refreshing, none =>
      some { s.setHandler k (.refreshed (if readable then some s.file else none)) with
        registryLock := some k }
    | _, _ => none
  | .refreshDone k =>
    match s.handlers[k]? with
    | some (.refreshed fresh) => some (s.refreshDone k fresh)
    | _ => none
  | .startNext k =>
    match s.handlers[k]?, s.tasks.writer with
    | some (.starting (id :: ids)), none =>
      some { s.setHandler k (.starting ids) with tasks := s.tasks.startNode id }
    | _, _ => none
  | .stopNext k =>
    match s.handlers[k]?, s.tasks.writer with
    | some (.stopping (id :: ids)), none =>
      some { s.setHandler k (.stopping ids) with tasks := s.tasks.stopNode id }
    | _, _ => none
  | .drop k =>
    match s.handlers[k]? with
    | some (.waiting _) | some .refreshing | some (.starting _) | some (.stopping _) =>
      some (s.setHandler k .done)
    | _ => none
  | .task action => s.task action

end AppState

end Autonomi.Daemon
