/-
  Calls of `add_nodes`, `remove_node` and `reset` in several processes, interleaved, and the copy of
  the registry that the daemon holds (`ant-core/src/node/daemon/server.rs`).
-/
import Autonomi.Daemon.Registry
import Autonomi.Lib.Trace

namespace Autonomi.Daemon

open Lib

/-- The serializer of the registry, to texts `T`. It fails on a path that is not Unicode. -/
structure Json (T : Type*) where
  toStringPretty : NodeRegistry → Option T
  fromStr : T → Option NodeRegistry
  fromStr_eq : ∀ r text, toStringPretty r = some text → fromStr text = some r

/-- What goes wrong in `NodeRegistry::load`. -/
inductive Fault where
  | none
  /-- `Path::exists` fails, which makes it `false`. -/
  | stat
  | read
  deriving DecidableEq, Repr

namespace Fault

def Harmless {α : Type*} (file : Option α) (fault : Fault) : Prop :=
  fault = .none ∨ file.isNone

instance {α : Type*} (file : Option α) (fault : Fault) : Decidable (fault.Harmless file) :=
  inferInstanceAs (Decidable (fault = .none ∨ file.isNone))

end Fault

def NodeRegistry.load {T : Type*} (J : Json T) : Option T → Fault → Option NodeRegistry
  | some text, .none => J.fromStr text
  | some _, .read => none
  | some _, .stat => some .empty
  | none, _ => some .empty

/-- Where a call is. -/
inductive CallPhase where
  | waiting
  | locked
  | loaded (registry : NodeRegistry)
  | changed (registry : NodeRegistry)
  /-- The temporary file is written. -/
  | written (registry : NodeRegistry)
  | renamed
  /-- Back in the handler, which waits for the lock of the copy. -/
  | refreshing
  /-- The handler has the lock of the copy and the outcome of `load`. -/
  | refreshed (fresh : Option NodeRegistry)

namespace CallPhase

/-- The mutation is made, and the copy not yet read again. -/
def Pending : CallPhase → Prop
  | renamed | refreshing => True
  | _ => False

/-- The mutation is made, and the copy not yet replaced. -/
def InProgress : CallPhase → Prop
  | renamed | refreshing | refreshed _ => True
  | _ => False

def loaded? : CallPhase → Option NodeRegistry
  | loaded registry => some registry
  | _ => none

def isRefreshing : CallPhase → Bool
  | refreshing => true
  | _ => false

theorem Pending.inProgress : ∀ {phase : CallPhase}, phase.Pending → phase.InProgress
  | renamed, h | refreshing, h => h

end CallPhase

structure RegistryCall where
  process : ℕ
  op : RegistryOp
  phase : CallPhase

/-- The daemon's process. -/
def daemon : ℕ := 0

/-- A rename of the temporary file to the registry file. -/
structure Commit where
  call : ℕ
  process : ℕ
  op : RegistryOp

/-- `commits` has the registries that were saved, the newest first, and `results` tells which of the
    calls have returned `Ok`. -/
structure Mutations (T : Type*) where
  file : Option T
  tmp : Option T
  lock : Option ℕ
  calls : ℕ → Option RegistryCall
  registry : Option NodeRegistry
  registryLock : Option ℕ
  commits : List (Commit × NodeRegistry)
  results : ℕ → Option Bool

inductive MutationAction (T : Type*) where
  | begin (call process : ℕ) (op : RegistryOp)
  | lock (call : ℕ)
  | load (call : ℕ) (fault : Fault)
  | change (call : ℕ)
  /-- A part of the temporary file. -/
  | writePart (call : ℕ) (text : T)
  | write (call : ℕ)
  | rename (call : ℕ)
  /-- The lock file is closed. -/
  | unlock (call : ℕ)
  | refresh (call : ℕ) (fault : Fault)
  | refreshDone (call : ℕ)
  /-- The call fails, by itself or where something it needs does. -/
  | fail (call : ℕ)
  /-- The future of a handler is dropped at an `await`. -/
  | drop (call : ℕ)
  | crash (process : ℕ)
  | startDaemon (fault : Fault)

namespace Mutations

variable {T : Type*} (J : Json T) (s : Mutations T)

def initial : Mutations T where
  file := none
  tmp := none
  lock := none
  calls := fun _ => none
  registry := none
  registryLock := none
  commits := []
  results := fun _ => none

/-- The call has not been made before. -/
def Unused (k : ℕ) : Prop :=
  (s.calls k).isNone ∧ (s.results k).isNone ∧ ∀ e ∈ s.commits, e.1.call ≠ k

instance (k : ℕ) : Decidable (s.Unused k) :=
  inferInstanceAs (Decidable (_ ∧ _ ∧ ∀ e ∈ s.commits, e.1.call ≠ k))

def setCall (k : ℕ) (call : Option RegistryCall) : Mutations T :=
  { s with calls := Function.update s.calls k call }

def setPhase (k : ℕ) (c : RegistryCall) (phase : CallPhase) : Mutations T :=
  s.setCall k (some { c with phase := phase })

/-- The call returns, and its lock file is closed. -/
def finish (k : ℕ) (ok : Bool) : Mutations T :=
  { s.setCall k none with
    lock := if s.lock = some k then none else s.lock
    results := Function.update s.results k (some ok) }

/-- The step of a call, by where it is. -/
def callStep (k : ℕ) (c : RegistryCall) : MutationAction T → Option (Mutations T)
  | .lock _ =>
    match c.phase, s.lock with
    | .waiting, none => some { s.setPhase k c .locked with lock := some k }
    | _, _ => none
  | .load _ fault =>
    match c.phase with
    | .locked => (NodeRegistry.load J s.file fault).map fun r => s.setPhase k c (.loaded r)
    | _ => none
  | .change _ =>
    match c.phase with
    | .loaded r =>
      match c.op.apply r with
      | .ok r' => some (s.setPhase k c (.changed r'))
      | .error _ => none
    | _ => none
  | .writePart _ text =>
    match c.phase with
    | .changed _ => some { s with tmp := some text }
    | _ => none
  | .write _ =>
    match c.phase with
    | .changed r =>
      (J.toStringPretty r).map fun text => { s.setPhase k c (.written r) with tmp := some text }
    | _ => none
  | .rename _ =>
    match c.phase with
    | .written r =>
      some { s.setPhase k c .renamed with
        file := s.tmp
        tmp := none
        commits := (⟨k, c.process, c.op⟩, r) :: s.commits }
    | _ => none
  | .unlock _ =>
    match c.phase with
    | .renamed =>
      if c.process = daemon then some { s.setPhase k c .refreshing with lock := none }
      else some (s.finish k true)
    | _ => none
  | .refresh _ fault =>
    match c.phase, s.registryLock with
    | .refreshing, none =>
      some { s.setPhase k c (.refreshed (NodeRegistry.load J s.file fault)) with
        registryLock := some k }
    | _, _ => none
  | .refreshDone _ =>
    match c.phase with
    | .refreshed fresh =>
      some { s.finish k true with registry := fresh.or s.registry, registryLock := none }
    | _ => none
  | .fail _ =>
    match c.phase with
    | .waiting | .locked | .loaded _ | .changed _ | .written _ => some (s.finish k false)
    | _ => none
  | .drop _ =>
    match c.phase with
    | .waiting | .refreshing => if c.process = daemon then some (s.setCall k none) else none
    | _ => none
  | _ => none

/-- All that the process holds is gone. -/
def crash (process : ℕ) : Mutations T :=
  { s with
    calls := fun k => (s.calls k).filter fun c => c.process ≠ process
    lock := s.lock.filter fun k => (s.calls k).any fun c => c.process ≠ process
    registry := if process = daemon then none else s.registry
    registryLock := if process = daemon then none else s.registryLock }

def call : MutationAction T → Option ℕ
  | .lock k | .load k _ | .change k | .writePart k _ | .write k | .rename k | .unlock k
  | .refresh k _ | .refreshDone k | .fail k | .drop k => some k
  | .begin _ _ _ | .crash _ | .startDaemon _ => none

def step (a : MutationAction T) : Option (Mutations T) :=
  match a with
  | .begin k process op =>
    if s.Unused k ∧ (process = daemon → s.registry.isSome) then
      some (s.setCall k (some ⟨process, op, .waiting⟩))
    else none
  | .crash process => some (s.crash process)
  | .startDaemon fault =>
    match s.registry with
    | none => (NodeRegistry.load J s.file fault).map fun r => { s with registry := some r }
    | some _ => none
  | a => (call a).bind fun k => (s.calls k).bind fun c => s.callStep J k c a

end Mutations

end Autonomi.Daemon
