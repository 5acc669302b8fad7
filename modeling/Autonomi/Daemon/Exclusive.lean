/-
  At most one live process of each node.
-/
import Autonomi.Daemon.Monitors

namespace Autonomi.Daemon

open Lib

namespace Tasks

variable {s s' : Tasks} {nodeId pid m now : ℕ} {exitCode : Option ℤ} {phase : MonitorPhase}

/-! ## The steps -/

theorem Inv.startNode (h : Inv s) (hw : s.writer = none) (nodeId : ℕ) :
    Inv (s.startNode nodeId) := by
  have hstopped : ∀ id, s.stopped id = false →
      Function.update s.stopped nodeId false id = false := by
    intro id hid
    by_cases heq : id = nodeId
    · rw [heq, Function.update_self]
    · rw [Function.update_of_ne heq, hid]
  have hoccupied : ∀ id state, s.sup.Occupied id state →
      Function.update s.stopped nodeId false id = false ∧ ∃ p P, state.pid = some p ∧
        s.procs p = some P ∧ P.nodeId = id ∧ (s.recorded p = false ∨ s.Backoff id) :=
    fun id state hocc => (h.occupied id state hocc).imp_left (hstopped id)
  rw [Tasks.startNode]
  split_ifs with hrunning
  · exact
      { h with
        starting := fun id pid hid => ⟨(h.starting id pid hid).1,
          hstopped id (h.starting id pid hid).2.1, (h.starting id pid hid).2.2⟩
        occupied := hoccupied }
  · have hnot : ∀ id pid, s.writer ≠ some (.stopping id pid) := by simp [hw]
    exact
      { h with
        live := by
          intro p P hp hP
          rcases h.live p P hp hP with hlive | hlive
          · rw [hw] at hlive
            cases hlive
          · exact .inr hlive
        starting := by
          rintro id pid ⟨⟩
          refine ⟨fun state hocc => hrunning ?_, Function.update_self _ _ _, by simp⟩
          exact Supervisor.isRunning_iff.2 ⟨state, hocc.1, h.running hw hocc⟩
        stopping := by rintro id pid ⟨⟩
        stops := fun id state hstate hst => absurd hst (h.not_stopping hnot hstate)
        occupied := hoccupied }

theorem Inv.observe (h : Inv s) (hm : s.monitors m = some ⟨nodeId, .waiting pid⟩)
    (hstep : s.observe m nodeId pid = some s') : Inv s' := by
  rw [Tasks.observe] at hstep
  split at hstep
  · rename_i node code hpid
    obtain rfl := Option.some.inj hstep
    refine h.advance hm (fun p hp => hp) ?_ Iff.rfl nofun
    rintro - p P ⟨⟩ hP hlive
    obtain rfl := Option.some.inj (hpid.symm.trans hP)
    cases hlive
  · cases hstep

theorem Inv.check (h : Inv s) (hm : s.monitors m = some ⟨nodeId, .observed pid exitCode⟩) :
    Inv (s.check m nodeId pid exitCode) := by
  obtain ⟨-, howns⟩ := h.monitors m _ hm
  obtain ⟨-, P, hP, -, hdead⟩ := howns pid rfl
  have hdead : ∀ p Q, (if exitCode = some 0 then MonitorPhase.cleanExit pid else
      .crashed pid).pid = some p → s.procs p = some Q → ¬ Q.Live := by
    intro p Q hp hQ
    obtain rfl : pid = p := by split_ifs at hp <;> exact Option.some.inj hp
    obtain rfl : P = Q := Option.some.inj (hP.symm.trans hQ)
    exact hdead trivial
  rw [Tasks.check]
  split
  · exact h.remove hm id
  · exact h.remove hm id
  · refine h.advance hm ?_ (fun _ => hdead) ?_ nofun
    · intro p hp
      split_ifs at hp <;> exact hp
    · split_ifs <;> exact Iff.rfl

/-- What is known of a process stays true of it. -/
def Grown (procs procs' : ℕ → Option Process) : Prop :=
  ∀ p P, procs p = some P → ∃ P', procs' p = some P' ∧ P'.nodeId = P.nodeId ∧
    (¬ P.Live → ¬ P'.Live)

theorem Owns.grown {procs' : ℕ → Option Process} {monitor : Monitor} {p : ℕ}
    (h : s.Owns monitor p) (hg : Grown s.procs procs') :
    Owns { s with procs := procs' } monitor p := by
  obtain ⟨hrec, P, hP, hnode, hdead⟩ := h
  obtain ⟨P', hP', hnode', hdead'⟩ := hg p P hP
  exact ⟨hrec, P', hP', hnode'.trans hnode, fun hex => hdead' (hdead hex)⟩

theorem grown_exit {node : ℕ} (hpid : s.procs pid = some ⟨node, none⟩) (code : Option ℤ) :
    Grown s.procs (Function.update s.procs pid (some ⟨node, some code⟩)) := by
  intro p P hP
  by_cases heq : p = pid
  · subst heq
    obtain rfl := Option.some.inj (hpid.symm.trans hP)
    exact ⟨_, Function.update_self _ _ _, rfl, fun hnot => absurd rfl hnot⟩
  · exact ⟨P, by rw [Function.update_of_ne heq, hP], rfl, id⟩

theorem grown_spawn (hpid : s.procs pid = none) (nodeId : ℕ) :
    Grown s.procs (Function.update s.procs pid (some ⟨nodeId, none⟩)) := by
  intro p P hP
  refine ⟨P, ?_, rfl, id⟩
  rw [Function.update_of_ne (by rintro rfl; rw [hpid] at hP; cases hP), hP]

theorem Inv.occupied_grown {procs' : ℕ → Option Process} (h : Inv s) (hg : Grown s.procs procs')
    {state : NodeRuntime} (hocc : s.sup.Occupied nodeId state) :
    s.stopped nodeId = false ∧ ∃ p P, state.pid = some p ∧ procs' p = some P ∧
      P.nodeId = nodeId ∧ (s.recorded p = false ∨ s.Backoff nodeId) := by
  obtain ⟨hstopped, p, P, hp, hP, hnode, hrec⟩ := h.occupied nodeId state hocc
  obtain ⟨P', hP', hnode', -⟩ := hg p P hP
  exact ⟨hstopped, p, P', hp, hP', hnode'.trans hnode, hrec⟩

theorem Inv.monitors_grown {procs' : ℕ → Option Process} (h : Inv s) (hg : Grown s.procs procs')
    {monitor : Monitor} (hm : s.monitors m = some monitor) : (∃ P, procs' m = some P) ∧
      ∀ p, monitor.phase.pid = some p → Owns { s with procs := procs' } monitor p := by
  obtain ⟨⟨P, hP⟩, howns⟩ := h.monitors m monitor hm
  obtain ⟨P', hP', -⟩ := hg m P hP
  exact ⟨⟨P', hP'⟩, fun p hp => (howns p hp).grown hg⟩

theorem Inv.recorded_grown {procs' : ℕ → Option Process} (h : Inv s) (hg : Grown s.procs procs')
    {p : ℕ} (hp : s.recorded p = true) : ∃ P, procs' p = some P ∧ ¬ P.Live := by
  obtain ⟨P, hP, hdead⟩ := h.recorded p hp
  obtain ⟨P', hP', -, hdead'⟩ := hg p P hP
  exact ⟨P', hP', hdead' hdead⟩

/-- A process exits. -/
theorem Inv.exit (h : Inv s) (hstep : s.exit pid exitCode = some s') : Inv s' := by
  rw [Tasks.exit] at hstep
  split at hstep
  · rename_i node hpid
    obtain rfl := Option.some.inj hstep
    have hg := grown_exit hpid exitCode
    refine
      { h with
        live := ?_
        starting := ?_
        occupied := fun id state => h.occupied_grown hg
        monitors := fun m monitor => h.monitors_grown hg
        recorded := fun p => h.recorded_grown hg }
    · intro p P hP hlive
      by_cases heq : p = pid
      · subst heq
        simp only [Function.update_self, Option.some.injEq] at hP
        rw [← hP] at hlive
        cases hlive
      · simp only [Function.update_of_ne heq] at hP
        exact h.live p P hP hlive
    · intro id q hq
      obtain ⟨hocc, hstopped, hall⟩ := h.starting id q hq
      refine ⟨hocc, hstopped, fun p hp => ?_⟩
      obtain ⟨hrec, ⟨P, hP, hnode⟩, hnone⟩ := hall p hp
      obtain ⟨P', hP', hnode', -⟩ := hg p P hP
      exact ⟨hrec, ⟨P', hP', hnode'.trans hnode⟩, hnone⟩
  · cases hstep

/-- A pid that has not been used is not recorded, and no monitor has it. -/
theorem Inv.unused (h : Inv s) (hpid : s.procs pid = none) : s.recorded pid = false ∧
    ∀ m monitor, s.monitors m = some monitor → m ≠ pid ∧ monitor.phase.pid ≠ some pid := by
  refine ⟨?_, fun m monitor hm => ?_⟩
  · by_contra hrec
    obtain ⟨P, hP, -⟩ := h.recorded pid (by simpa using hrec)
    rw [hpid] at hP
    cases hP
  · obtain ⟨⟨P, hP⟩, howns⟩ := h.monitors m monitor hm
    constructor
    · rintro rfl
      rw [hpid] at hP
      cases hP
    · intro hp
      obtain ⟨-, Q, hQ, -⟩ := howns pid hp
      rw [hpid] at hQ
      cases hQ

theorem Inv.startSpawned {spawned : Option ℕ} (h : Inv s)
    (hw : s.writer = some (.starting nodeId none)) (hstep : s.startSpawned nodeId spawned = some s') :
    Inv s' := by
  obtain ⟨hfree, hstopped, -⟩ := h.starting _ _ hw
  have hlive : ∀ p P, s.procs p = some P → P.Live →
      (∃ state, s.sup.Occupied P.nodeId state ∧ state.pid = some p) ∨
        ∃ m, s.monitors m = some ⟨P.nodeId, .spawned (some p)⟩ := by
    intro p P hP hP'
    rcases h.live p P hP hP' with hlive | hlive
    · rw [hw] at hlive
      cases hlive
    · exact hlive
  have hnot : ∀ id pid, s.writer ≠ some (.stopping id pid) := by simp [hw]
  have hstops : ∀ id state, s.sup.nodeStates id = some state → state.status ≠ .stopping :=
    fun id state hstate => h.not_stopping hnot hstate
  cases spawned with
  | none =>
    obtain rfl := Option.some.inj hstep
    exact
      { h with
        live := fun p P hP hP' => .inr (hlive p P hP hP')
        starting := by rintro id pid ⟨⟩
        stopping := by rintro id pid ⟨⟩
        stops := fun id state hstate hstopping => absurd hstopping (hstops id state hstate) }
  | some pid =>
    simp only [Tasks.startSpawned, Tasks.spawn] at hstep
    split at hstep
    · cases hstep
    · rename_i hpid
      obtain rfl := Option.some.inj hstep
      have hg := grown_spawn hpid nodeId
      obtain ⟨hrec, hnone⟩ := h.unused hpid
      exact
        { live := by
            intro p P hP hP'
            by_cases heq : p = pid
            · subst heq
              simp only [Function.update_self, Option.some.injEq] at hP
              rw [← hP]
              exact .inl rfl
            · simp only [Function.update_of_ne heq] at hP
              exact .inr (hlive p P hP hP')
          starting := by
            rintro id q ⟨⟩
            refine ⟨hfree, hstopped, ?_⟩
            rintro p ⟨⟩
            exact ⟨hrec, ⟨_, Function.update_self _ _ _, rfl⟩, hnone⟩
          stopping := by rintro id q ⟨⟩
          stops := fun id state hstate hstopping => absurd hstopping (hstops id state hstate)
          occupied := fun id state => h.occupied_grown hg
          monitors := fun m monitor => h.monitors_grown hg
          apart := h.apart
          backoff := h.backoff
          recorded := fun p => h.recorded_grown hg }

/-- A monitor spawns a process that takes the place of the one that crashed. -/
theorem Inv.respawn {spawned : Option ℕ} {backoff : ℕ} (h : Inv s)
    (hm : s.monitors m = some ⟨nodeId, .sleeping backoff⟩)
    (hstep : s.respawn m nodeId spawned = some s') : Inv s' := by
  cases spawned with
  | none =>
    obtain rfl := Option.some.inj hstep
    exact h.advance hm nofun nofun Iff.rfl nofun
  | some pid =>
    simp only [Tasks.respawn, Tasks.spawn] at hstep
    split at hstep
    · cases hstep
    · rename_i hpid
      obtain rfl := Option.some.inj hstep
      have hg := grown_spawn hpid nodeId
      obtain ⟨hrec, hnone⟩ := h.unused hpid
      obtain ⟨hkey, -⟩ := h.monitors_grown hg hm
      have hbackoff : ∀ id, s.Backoff id →
          (s.setMonitor m (some ⟨nodeId, .spawned (some pid)⟩)).Backoff id := by
        intro id hb
        refine hb.setMonitor fun monitor' hm' hnode _ => ⟨_, rfl, ?_, trivial⟩
        obtain rfl := Option.some.inj (hm.symm.trans hm')
        exact hnode
      have hapart : ∀ b ∈ some (Monitor.mk nodeId (.spawned (some pid))), ∀ m' monitor', m' ≠ m →
          s.monitors m' = some monitor' → Apart b monitor' := by
        rintro b ⟨⟩ m' monitor' hne hm'
        refine ⟨?_, fun _ => (h.apart m m' _ _ hne.symm hm hm').2 trivial⟩
        rintro p ⟨⟩
        exact (hnone m' monitor' hm').2
      exact
        { live := by
            intro p P hP hlive
            by_cases heq : p = pid
            · subst heq
              simp only [Tasks.setMonitor, Function.update_self, Option.some.injEq] at hP
              rw [← hP]
              exact .inr (.inr ⟨m, Function.update_self _ _ _⟩)
            · simp only [Tasks.setMonitor, Function.update_of_ne heq] at hP
              refine (h.live p P hP hlive).imp_right (Or.imp_right ?_)
              rintro ⟨m', hm'⟩
              refine ⟨m', (Function.update_of_ne ?_ _ _).trans hm'⟩
              rintro rfl
              cases hm.symm.trans hm'
          starting := by
            intro id q hq
            obtain ⟨hocc, hstopped, hall⟩ := h.starting id q hq
            refine ⟨hocc, hstopped, fun p hp => ?_⟩
            obtain ⟨hrec, ⟨P, hP, hnode⟩, hother⟩ := hall p hp
            obtain ⟨P', hP', hnode', -⟩ := hg p P hP
            refine ⟨hrec, ⟨P', hP', hnode'.trans hnode⟩, fun m' monitor' hm' => ?_⟩
            rcases setMonitor_eq_some hm' with ⟨rfl, heq⟩ | ⟨-, hm'⟩
            · obtain rfl := Option.some.inj heq
              refine ⟨(hother _ _ hm).1, ?_⟩
              rintro ⟨⟩
              rw [hpid] at hP
              cases hP
            · exact hother m' monitor' hm'
          stopping := h.stopping
          stops := h.stops
          occupied := by
            intro id state hocc
            obtain ⟨hstopped, p, P, hp, hP, hnode, hrec⟩ := h.occupied_grown hg hocc
            exact ⟨hstopped, p, P, hp, hP, hnode, hrec.imp_right (hbackoff id)⟩
          monitors := by
            intro m' monitor' hm'
            rcases setMonitor_eq_some hm' with ⟨rfl, heq⟩ | ⟨-, hm'⟩
            · obtain rfl := Option.some.inj heq
              refine ⟨hkey, ?_⟩
              rintro p ⟨⟩
              exact ⟨hrec, _, Function.update_self _ _ _, rfl, nofun⟩
            · exact h.monitors_grown hg hm'
          apart := fun m₁ m₂ b₁ b₂ => h.apart_setMonitor hapart
          backoff := by
            rintro id ⟨m', monitor', hm', hnode, hr⟩
            rcases setMonitor_eq_some hm' with ⟨rfl, heq⟩ | ⟨-, hm'⟩
            · obtain rfl := Option.some.inj heq
              exact h.backoff id ⟨m', _, hm, hnode, trivial⟩
            · exact h.backoff id ⟨m', monitor', hm', hnode, hr⟩
          recorded := fun p => h.recorded_grown hg }

/-! ## The end of a start -/

section StartDone

variable {state : NodeRuntime}

theorem not_stopping_of_starting (hw : s.writer = some (.starting nodeId (some pid))) :
    ∀ id q, s.writer ≠ some (.stopping id q) := by
  intro id q hq
  cases hw.symm.trans hq

/-- A process is live that is just being started, or the node is another one. -/
theorem Inv.live_of_starting (h : Inv s) (hw : s.writer = some (.starting nodeId (some pid))) {p : ℕ}
    {P : Process} (hP : s.procs p = some P) (hlive : P.Live) :
    p = pid ∧ P.nodeId = nodeId ∨
      (P.nodeId ≠ nodeId ∧ ∃ state, s.sup.Occupied P.nodeId state ∧ state.pid = some p) ∨
        ∃ m, s.monitors m = some ⟨P.nodeId, .spawned (some p)⟩ := by
  rcases h.live p P hP hlive with hwriter | ⟨state, hocc, hpid⟩ | hm
  · rw [hw] at hwriter
    simp only [Option.some.injEq, Writer.starting.injEq] at hwriter
    exact .inl ⟨hwriter.2.symm, hwriter.1.symm⟩
  · have hfree := (h.starting _ _ hw).1
    exact .inr (.inl ⟨fun heq => hfree state (heq ▸ hocc), state, hocc, hpid⟩)
  · exact .inr (.inr hm)

theorem Inv.isRunning_of_starting (h : Inv s) (hw : s.writer = some (.starting nodeId (some pid))) :
    s.sup.isRunning nodeId = false := by
  by_contra hrunning
  obtain ⟨state, hstate, hstatus⟩ := Supervisor.isRunning_iff.1 (by simpa using hrunning)
  exact (h.starting _ _ hw).1 state ⟨hstate, .inl hstatus⟩

/-- No entry is stopping, once there is a new one for the node. -/
theorem Inv.insert_not_stopping (h : Inv s) (hw : s.writer = some (.starting nodeId (some pid)))
    (hne : state.status ≠ .stopping) {id : ℕ} {state' : NodeRuntime}
    (hstate : (s.sup.insert nodeId state).nodeStates id = some state') :
    state'.status ≠ .stopping := by
  by_cases heq : id = nodeId
  · subst heq
    rw [Supervisor.insert_self] at hstate
    rwa [← Option.some.inj hstate]
  · rw [Supervisor.insert_of_ne _ _ heq] at hstate
    exact h.not_stopping (not_stopping_of_starting hw) hstate

/-- A node that is being started is in no backoff. -/
theorem Inv.backoff_insert (h : Inv s) (hw : s.writer = some (.starting nodeId (some pid)))
    (state : NodeRuntime) {id : ℕ} (hb : s.Backoff id) :
    ∃ state' p, (s.sup.insert nodeId state).nodeStates id = some state' ∧
      state'.status = .running ∧ state'.pid = some p ∧ s.recorded p = true := by
  obtain ⟨state', p, hstate', hrest⟩ := h.backoff id hb
  refine ⟨state', p, (Supervisor.insert_of_ne _ _ ?_).trans hstate', hrest⟩
  rintro rfl
  exact (h.starting _ _ hw).1 state' ⟨hstate', .inl hrest.1⟩

/-- The process is gone within a second. -/
theorem Inv.startExited {code : Option ℤ} {node : ℕ} {error : String} (h : Inv s)
    (hw : s.writer = some (.starting nodeId (some pid)))
    (hpid : s.procs pid = some ⟨node, some code⟩) :
    Inv { s with sup := (s.sup.startNode nodeId (.exited error) now).1, writer := none } := by
  simp only [Supervisor.startNode_exited (h.isRunning_of_starting hw)]
  refine
    { h with
      live := ?_
      starting := by rintro id q ⟨⟩
      stopping := by rintro id q ⟨⟩
      stops := fun id state hstate hstopping => absurd hstopping
        (h.insert_not_stopping hw (by simp [NodeRuntime.errored]) hstate)
      occupied := ?_
      backoff := fun id => h.backoff_insert hw .errored }
  · intro p P hP hlive
    rcases h.live_of_starting hw hP hlive with ⟨rfl, -⟩ | ⟨hne, state, hocc, hp⟩ | hm
    · obtain rfl := Option.some.inj (hpid.symm.trans hP)
      cases hlive
    · exact .inr (.inl ⟨state, Supervisor.occupied_insert_iff.2 (.inr ⟨hne, hocc⟩), hp⟩)
    · exact .inr (.inr hm)
  · intro id state hocc
    rcases Supervisor.occupied_insert_iff.1 hocc with ⟨-, -, hst⟩ | ⟨-, hocc⟩
    · simp [NodeRuntime.errored] at hst
    · exact h.occupied id state hocc

/-- It could not be waited for. -/
theorem Inv.startFailed (h : Inv s) (hw : s.writer = some (.starting nodeId (some pid)))
    (hgone : s.Gone pid) : Inv { s with writer := none } := by
  refine
    { h with
      live := ?_
      starting := by rintro id q ⟨⟩
      stopping := by rintro id q ⟨⟩
      stops := fun id state hstate hstopping =>
        absurd hstopping (h.not_stopping (not_stopping_of_starting hw) hstate) }
  intro p P hP hlive
  rcases h.live_of_starting hw hP hlive with ⟨rfl, -⟩ | ⟨-, hocc⟩ | hm
  · exact absurd hlive (hgone P hP)
  · exact .inr (.inl hocc)
  · exact .inr (.inr hm)

/-- It runs, and gets a monitor. -/
theorem Inv.startRunning (h : Inv s) (hw : s.writer = some (.starting nodeId (some pid))) (now : ℕ) :
    Inv ({ s with sup := (s.sup.startNode nodeId (.running pid) now).1, writer := none }.setMonitor
      pid (some ⟨nodeId, .waiting pid⟩)) := by
  obtain ⟨-, hstopped, hall⟩ := h.starting _ _ hw
  obtain ⟨hrec, ⟨P, hP, hnode⟩, hnone⟩ := hall pid rfl
  rw [Supervisor.startNode_running (h.isRunning_of_starting hw)]
  -- the pid of the process has had no monitor
  have hother : ∀ m monitor, s.monitors m = some monitor → (s.setMonitor pid
      (some ⟨nodeId, .waiting pid⟩)).monitors m = some monitor :=
    fun m monitor hm => (monitors_setMonitor_of_ne _ (hnone m monitor hm).1).trans hm
  have hapart : ∀ b ∈ some (Monitor.mk nodeId (.waiting pid)), ∀ m' monitor', m' ≠ pid →
      s.monitors m' = some monitor' → Apart b monitor' := by
    rintro b ⟨⟩ m' monitor' - hm'
    refine ⟨?_, nofun⟩
    rintro p ⟨⟩
    exact (hnone m' monitor' hm').2
  refine
    { live := ?_
      starting := by rintro id q ⟨⟩
      stopping := by rintro id q ⟨⟩
      stops := fun id state hstate hstopping => absurd hstopping
        (h.insert_not_stopping hw (by simp [NodeRuntime.running]) hstate)
      occupied := ?_
      monitors := ?_
      apart := fun m₁ m₂ b₁ b₂ => h.apart_setMonitor hapart
      backoff := ?_
      recorded := h.recorded }
  · intro p Q hQ hlive
    rcases h.live_of_starting hw hQ hlive with ⟨rfl, hnode'⟩ | ⟨hne, state, hocc, hp⟩ | ⟨m, hm⟩
    · exact .inr (.inl ⟨.running p now,
        Supervisor.occupied_insert_iff.2 (.inl ⟨hnode', rfl, .inl rfl⟩), rfl⟩)
    · exact .inr (.inl ⟨state, Supervisor.occupied_insert_iff.2 (.inr ⟨hne, hocc⟩), hp⟩)
    · exact .inr (.inr ⟨m, hother m _ hm⟩)
  · intro id state hocc
    rcases Supervisor.occupied_insert_iff.1 hocc with ⟨rfl, rfl, -⟩ | ⟨-, hocc⟩
    · exact ⟨hstopped, pid, P, rfl, hP, hnode, .inl hrec⟩
    · obtain ⟨hst, p, Q, hp, hQ, hQnode, hb⟩ := h.occupied id state hocc
      refine ⟨hst, p, Q, hp, hQ, hQnode, hb.imp_right ?_⟩
      rintro ⟨m, monitor, hm, hr⟩
      exact ⟨m, monitor, hother m monitor hm, hr⟩
  · intro m monitor hm
    rcases setMonitor_eq_some hm with ⟨rfl, heq⟩ | ⟨-, hm⟩
    · obtain rfl := Option.some.inj heq
      refine ⟨⟨P, hP⟩, ?_⟩
      rintro p ⟨⟩
      exact ⟨hrec, P, hP, hnode, nofun⟩
    · exact h.monitors m monitor hm
  · rintro id ⟨m, monitor, hm, hid, hr⟩
    rcases setMonitor_eq_some hm with ⟨rfl, heq⟩ | ⟨-, hm⟩
    · obtain rfl := Option.some.inj heq
      exact hr.elim
    · exact h.backoff_insert hw _ ⟨m, monitor, hm, hid, hr⟩

theorem Inv.startDone {health : HealthCheck} (h : Inv s)
    (hw : s.writer = some (.starting nodeId (some pid))) (hgone : health = .failed → s.Gone pid)
    (hstep : s.startDone nodeId pid now health = some s') : Inv s' := by
  cases health with
  | exited =>
    simp only [Tasks.startDone] at hstep
    split at hstep
    · rename_i hpid
      obtain rfl := Option.some.inj hstep
      exact h.startExited hw hpid
    · cases hstep
  | failed =>
    obtain rfl := Option.some.inj hstep
    exact h.startFailed hw (hgone rfl)
  | timeout =>
    obtain rfl := Option.some.inj hstep
    exact h.startRunning hw now

end StartDone

/-! ## A stop, and what the monitors record -/

theorem Inv.stopNode (h : Inv s) (hw : s.writer = none) (hcalm : ¬ s.Backoff nodeId) :
    Inv (s.stopNode nodeId) := by
  rw [Tasks.stopNode]
  split
  · rename_i sup stopped hstop
    obtain ⟨state, hstate, hrunning, rfl, rfl⟩ := Supervisor.beginStop_eq_ok hstop
    have hnot : ∀ id pid, s.writer ≠ some (.stopping id pid) := by simp [hw]
    refine
      { h with
        live := ?_
        starting := by rintro id q ⟨⟩
        stopping := ?_
        stops := ?_
        occupied := ?_
        backoff := ?_ }
    · intro p P hP hlive
      rcases h.live p P hP hlive with hwriter | ⟨state', hocc, hpid⟩ | hm
      · rw [hw] at hwriter
        cases hwriter
      · refine .inr (.inl ?_)
        by_cases heq : P.nodeId = nodeId
        · obtain rfl : state = state' := by
            rw [heq] at hocc
            exact Option.some.inj (hstate.symm.trans hocc.1)
          exact ⟨{ state with status := .stopping },
            Supervisor.occupied_insert_iff.2 (.inl ⟨heq, rfl, .inr rfl⟩), hpid⟩
        · exact ⟨state', Supervisor.occupied_insert_iff.2 (.inr ⟨heq, hocc⟩), hpid⟩
      · exact .inr (.inr hm)
    · rintro id q ⟨⟩
      exact ⟨_, Supervisor.insert_self _ _ _, rfl, rfl⟩
    · intro id state' hstate' hstopping
      by_cases heq : id = nodeId
      · subst heq
        rw [Supervisor.insert_self] at hstate'
        rw [← Option.some.inj hstate']
      · rw [Supervisor.insert_of_ne _ _ heq] at hstate'
        exact absurd hstopping (h.not_stopping hnot hstate')
    · intro id state' hocc
      rcases Supervisor.occupied_insert_iff.1 hocc with ⟨rfl, rfl, -⟩ | ⟨-, hocc⟩
      · exact h.occupied id state ⟨hstate, .inl hrunning⟩
      · exact h.occupied id state' hocc
    · intro id hb
      obtain ⟨state', p, hstate', hrest⟩ := h.backoff id hb
      refine ⟨state', p, (Supervisor.insert_of_ne _ _ ?_).trans hstate', hrest⟩
      rintro rfl
      exact hcalm hb
  · exact h

theorem Inv.stopDone {stopped : Option ℕ} (h : Inv s)
    (hw : s.writer = some (.stopping nodeId stopped)) (hgone : ∀ pid ∈ stopped, s.Gone pid) :
    Inv (s.stopDone nodeId) := by
  obtain ⟨state, hstate, hstopping, hpid⟩ := h.stopping _ _ hw
  have hend : s.sup.endStop nodeId =
      s.sup.insert nodeId { state with status := .stopped, pid := none, startedAt := none } := by
    rw [Supervisor.endStop, hstate]
  -- no other entry is in the course of being stopped
  have hstops : ∀ id state', id ≠ nodeId → s.sup.nodeStates id = some state' →
      state'.status ≠ .stopping := by
    intro id state' hne hstate' hst
    have := h.stops id state' hstate' hst
    rw [hw] at this
    simp only [Option.some.injEq, Writer.stopping.injEq] at this
    exact hne this.1.symm
  have hnode : ∀ id state', (s.stopDone nodeId).sup.Occupied id state' →
      id ≠ nodeId ∧ s.sup.Occupied id state' := by
    intro id state' hocc
    simp only [Tasks.stopDone, hend, Supervisor.occupied_insert_iff] at hocc
    simpa using hocc
  have hother : ∀ id ≠ nodeId, (s.stopDone nodeId).sup.nodeStates id = s.sup.nodeStates id := by
    intro id hid
    simp only [Tasks.stopDone, hend, Supervisor.insert_of_ne _ _ hid]
  refine
    { h with
      live := ?_
      starting := by rintro id q ⟨⟩
      stopping := by rintro id q ⟨⟩
      stops := ?_
      occupied := ?_
      backoff := ?_ }
  · intro p P hP hlive
    rcases h.live p P hP hlive with hwriter | ⟨state', hocc, hp⟩ | hm
    · rw [hw] at hwriter
      cases hwriter
    · refine .inr (.inl ⟨state', hocc.congr (hother _ ?_), hp⟩)
      intro heq
      rw [heq] at hocc
      obtain rfl : state = state' := Option.some.inj (hstate.symm.trans hocc.1)
      exact hgone p (hpid ▸ hp) P hP hlive
    · exact .inr (.inr hm)
  · intro id state' hstate' hst
    obtain ⟨hne, hocc⟩ := hnode id state' ⟨hstate', .inr hst⟩
    exact absurd hst (hstops id state' hne hocc.1)
  · intro id state' hocc
    obtain ⟨hne, hocc⟩ := hnode id state' hocc
    obtain ⟨hfalse, hrest⟩ := h.occupied id state' hocc
    exact ⟨by simpa [Tasks.stopDone, Function.update_of_ne hne] using hfalse, hrest⟩
  · intro id hb
    obtain ⟨state', p, hstate', hrunning, hrest⟩ := h.backoff id hb
    refine ⟨state', p, (hother id ?_).trans hstate', hrunning, hrest⟩
    rintro rfl
    obtain rfl : state = state' := Option.some.inj (hstate.symm.trans hstate')
    rw [hrunning] at hstopping
    cases hstopping

/-- When a monitor is to record an exit in an entry that has its pid, the node has no live process,
    and no other monitor is about to restart it. -/
theorem Inv.settled (h : Inv s) (hw : s.writer = none)
    (hm : s.monitors m = some ⟨nodeId, phase⟩) (hphase : phase.pid = some pid)
    (hexited : phase.Exited)
    (hpid : s.sup.isRunning nodeId = true → s.sup.nodePid nodeId = some pid) :
    ¬ s.Backoff nodeId ∧ ∀ p P, s.procs p = some P → P.nodeId = nodeId → ¬ P.Live := by
  obtain ⟨-, howns⟩ := h.monitors m _ hm
  obtain ⟨hrec, P, hP, -, hdead⟩ := howns pid hphase
  have hentry : ∀ state, s.sup.Occupied nodeId state → state.pid = some pid := by
    intro state hocc
    have hrunning := Supervisor.isRunning_iff.2 ⟨state, hocc.1, h.running hw hocc⟩
    obtain ⟨state', hstate', hpid'⟩ := Option.bind_eq_some_iff.1 (hpid hrunning)
    obtain rfl : state = state' := Option.some.inj (hocc.1.symm.trans hstate')
    exact hpid'
  have hcalm : ¬ s.Backoff nodeId := by
    intro hb
    obtain ⟨state, p, hstate, hrunning, hp, hp'⟩ := h.backoff nodeId hb
    obtain rfl : p = pid := Option.some.inj (hp.symm.trans (hentry state ⟨hstate, .inl hrunning⟩))
    rw [hrec] at hp'
    cases hp'
  refine ⟨hcalm, fun p Q hQ hnode hlive => ?_⟩
  rcases h.live p Q hQ hlive with hwriter | ⟨state, hocc, hp⟩ | ⟨m', hm'⟩
  · rw [hw] at hwriter
    cases hwriter
  · rw [hnode] at hocc
    obtain rfl : p = pid := Option.some.inj (hp.symm.trans (hentry state hocc))
    obtain rfl : P = Q := Option.some.inj (hP.symm.trans hQ)
    exact hdead hexited hlive
  · exact hcalm ⟨m', _, hm', hnode, trivial⟩

/-- What is recorded once the exit of the process is. -/
theorem Inv.recorded_update (h : Inv s) (hm : s.monitors m = some ⟨nodeId, phase⟩)
    (hphase : phase.pid = some pid) (hexited : phase.Exited) {p : ℕ}
    (hp : Function.update s.recorded pid true p = true) :
    s.recorded p = true ∨ phase.pid = some p ∧ ∀ P, s.procs p = some P → ¬ P.Live := by
  by_cases heq : p = pid
  · subst heq
    obtain ⟨-, P, hP, -, hdead⟩ := (h.monitors m _ hm).2 p hphase
    refine .inr ⟨hphase, fun Q hQ => ?_⟩
    obtain rfl : P = Q := Option.some.inj (hP.symm.trans hQ)
    exact hdead hexited
  · exact .inl ((Function.update_of_ne heq _ _).symm.trans hp)

theorem recorded_of_recorded {p : ℕ} (hp : s.recorded p = true) :
    Function.update s.recorded pid true p = true := by
  by_cases heq : p = pid
  · rw [heq, Function.update_self]
  · rwa [Function.update_of_ne heq]

theorem Inv.recordClean (h : Inv s) (hw : s.writer = none)
    (hm : s.monitors m = some ⟨nodeId, .cleanExit pid⟩)
    (hpid : s.sup.isRunning nodeId = true → s.sup.nodePid nodeId = some pid) :
    Inv (s.recordClean m nodeId pid now) := by
  obtain ⟨hcalm, hdead⟩ := h.settled hw hm rfl trivial hpid
  exact h.settle hw hm (fun m' monitor' _ hm' hnode hr => hcalm ⟨m', monitor', hm', hnode, hr⟩)
    (fun _ hid => Supervisor.updateState_of_ne hid) (fun _ => recorded_of_recorded)
    (fun _ => h.recorded_update hm rfl trivial) (fun p P hP hnode hlive => absurd hlive (hdead p P hP hnode))
    (fun _ hocc => absurd hocc (Supervisor.not_occupied_updateState (by simp))) nofun nofun

theorem recordCrash_eq (s : Tasks) (m nodeId pid now : ℕ) :
    s.recordCrash m nodeId pid now =
      { s with
        sup := (s.sup.recordCrash nodeId now).1
        recorded := Function.update s.recorded pid true }.setMonitor m
          (if (s.sup.recordCrash nodeId now).2.1 then
            some ⟨nodeId, .sleeping (s.sup.recordCrash nodeId now).2.2.2⟩ else none) := rfl

theorem Inv.recordCrash (h : Inv s) (hw : s.writer = none)
    (hm : s.monitors m = some ⟨nodeId, .crashed pid⟩) (hrunning : s.sup.isRunning nodeId = true)
    (hpid : s.sup.nodePid nodeId = some pid) : Inv (s.recordCrash m nodeId pid now) := by
  obtain ⟨hcalm, hdead⟩ := h.settled hw hm rfl trivial fun _ => hpid
  obtain ⟨state, hstate, hstatus⟩ := Supervisor.isRunning_iff.1 hrunning
  obtain ⟨-, P, hP, hnode, -⟩ := (h.monitors m _ hm).2 pid rfl
  have hstopped := (h.occupied nodeId state ⟨hstate, .inl hstatus⟩).1
  have hstatepid : state.pid = some pid := by rwa [Supervisor.nodePid, hstate] at hpid
  rw [recordCrash_eq]
  refine h.settle hw hm (fun m' monitor' _ hm' hnode hr => hcalm ⟨m', monitor', hm', hnode, hr⟩)
    (fun _ hid => Supervisor.recordCrash_of_ne hid) (fun _ => recorded_of_recorded)
    (fun _ => h.recorded_update hm rfl trivial)
    (fun p P hP hnode hlive => absurd hlive (hdead p P hP hnode)) ?_ ?_ ?_
  · intro state' hocc
    rcases Supervisor.recordCrash_running now hstate hstatus with
      ⟨-, hfree⟩ | ⟨hrestart, state'', hstate'', hrunning'', hpid''⟩
    · exact absurd hocc (hfree state')
    · obtain rfl : state' = state'' := Option.some.inj (hocc.1.symm.trans hstate'')
      refine ⟨hrunning'', hstopped, pid, P, hpid''.trans hstatepid, hP, hnode, .inr ?_⟩
      rw [if_pos hrestart]
      exact ⟨_, rfl, trivial⟩
  · intro b hb
    split_ifs at hb
    · obtain rfl := Option.some.inj hb
      exact ⟨rfl, id, nofun⟩
    · cases hb
  · rintro b hb -
    split_ifs at hb with hrestart
    swap
    · cases hb
    rcases Supervisor.recordCrash_running now hstate hstatus with
      ⟨hno, -⟩ | ⟨-, state'', hstate'', hrunning'', hpid''⟩
    · rw [hno] at hrestart
      cases hrestart
    · exact ⟨state'', pid, hstate'', hrunning'', hpid''.trans hstatepid, Function.update_self _ _ _⟩

/-- The new process is entered, or the node has none. -/
theorem Inv.recordRestart {spawned : Option ℕ} (h : Inv s) (hw : s.writer = none)
    (hm : s.monitors m = some ⟨nodeId, .spawned spawned⟩) :
    Inv (s.recordRestart m nodeId now spawned) := by
  have hb : s.Backoff nodeId := ⟨m, _, hm, rfl, trivial⟩
  obtain ⟨state, p, hstate, hrunning, -, -⟩ := h.backoff nodeId hb
  have hsole : ∀ m' monitor', m' ≠ m → s.monitors m' = some monitor' →
      monitor'.nodeId = nodeId → ¬ monitor'.phase.Restarting := by
    intro m' monitor' hne hm' hnode hr
    exact (h.apart m m' _ _ hne.symm hm hm').2 trivial hr hnode.symm
  have hlive : ∀ q Q, s.procs q = some Q → Q.nodeId = nodeId → Q.Live → spawned = some q := by
    intro q Q hQ hnode hlive
    rcases h.live q Q hQ hlive with hwriter | ⟨state', hocc, hq⟩ | ⟨m', hm'⟩
    · rw [hw] at hwriter
      cases hwriter
    · rw [hnode] at hocc
      exact absurd hlive (h.dead_of_backoff hb hocc hq hQ)
    · obtain rfl : m' = m := by
        by_contra hne
        exact hsole m' _ hne hm' hnode trivial
      have heq := hm.symm.trans hm'
      simp only [Option.some.injEq, Monitor.mk.injEq, MonitorPhase.spawned.injEq] at heq
      exact heq.2
  cases spawned with
  | none =>
    exact h.settle hw hm hsole (fun _ hid => Supervisor.updateState_of_ne hid) (fun _ => id)
      (fun _ => .inl) (fun q Q hQ hnode hq => nomatch hlive q Q hQ hnode hq)
      (fun _ hocc => absurd hocc (Supervisor.not_occupied_updateState (by simp))) nofun nofun
  | some p =>
    obtain ⟨hrec, P, hP, hnode, -⟩ := (h.monitors m _ hm).2 p rfl
    have hstopped := (h.occupied nodeId state ⟨hstate, .inl hrunning⟩).1
    have hentry := Supervisor.updateState_eq_insert .running (some p) now hstate
    refine h.settle hw hm hsole (fun _ hid => Supervisor.updateState_of_ne hid) (fun _ => id)
      (fun _ => .inl) (fun q Q hQ hnode hq => ?_) (fun state' hocc => ?_) ?_ ?_
    · obtain rfl := Option.some.inj (hlive q Q hQ hnode hq)
      rw [hentry]
      exact ⟨_, Supervisor.occupied_insert_iff.2 (.inl ⟨rfl, rfl, .inl rfl⟩), rfl⟩
    · rw [hentry] at hocc
      rcases Supervisor.occupied_insert_iff.1 hocc with ⟨-, rfl, -⟩ | ⟨hne, -⟩
      · exact ⟨rfl, hstopped, p, P, rfl, hP, hnode, .inl hrec⟩
      · exact absurd rfl hne
    · rintro b ⟨⟩
      refine ⟨rfl, id, ?_⟩
      rintro q ⟨⟩
      exact ⟨rfl, hrec⟩
    · rintro b ⟨⟩ hr
      exact hr.elim

/-! ## Runs -/

theorem Inv.step {a : TaskAction} (h : Inv s) (hpatient : s.Patient a)
    (hstep : s.step a = some s') : Inv s' := by
  cases a with
  | startNode nodeId =>
    simp only [Tasks.step] at hstep
    split_ifs at hstep with hw
    obtain rfl := Option.some.inj hstep
    exact h.startNode hw nodeId
  | startSpawned spawned =>
    simp only [Tasks.step] at hstep
    split at hstep
    · exact h.startSpawned (by assumption) hstep
    · cases hstep
  | startDone health now =>
    simp only [Tasks.step] at hstep
    split at hstep
    · rename_i nodeId pid hw
      refine h.startDone hw ?_ hstep
      rintro rfl
      exact hpatient _ hw pid rfl
    · cases hstep
  | stopNode nodeId =>
    simp only [Tasks.step] at hstep
    split_ifs at hstep with hw
    obtain rfl := Option.some.inj hstep
    exact h.stopNode hw hpatient
  | stopKill exitCode =>
    simp only [Tasks.step] at hstep
    split at hstep
    · exact h.exit hstep
    · cases hstep
  | stopDone =>
    simp only [Tasks.step] at hstep
    split at hstep
    · rename_i nodeId stopped hw
      obtain rfl := Option.some.inj hstep
      exact h.stopDone hw (hpatient _ hw)
    · cases hstep
  | exit pid exitCode => exact h.exit hstep
  | observe m =>
    simp only [Tasks.step] at hstep
    split at hstep
    · exact h.observe (by assumption) hstep
    · cases hstep
  | check m =>
    simp only [Tasks.step] at hstep
    split at hstep
    · obtain rfl := Option.some.inj hstep
      exact h.check (by assumption)
    · cases hstep
  | recordClean m now =>
    simp only [Tasks.step] at hstep
    split at hstep
    · rename_i nodeId pid hw hm
      obtain rfl := Option.some.inj hstep
      refine h.recordClean hw hm fun hrunning => ?_
      simpa using hpatient _ hm hrunning
    · cases hstep
  | recordCrash m now =>
    simp only [Tasks.step] at hstep
    split at hstep
    · rename_i nodeId pid hw hm
      obtain rfl := Option.some.inj hstep
      obtain ⟨hrunning, hpid⟩ := hpatient _ hm
      exact h.recordCrash hw hm hrunning (by simpa using hpid)
    · cases hstep
  | respawn m pid =>
    simp only [Tasks.step] at hstep
    split at hstep
    · exact h.respawn (by assumption) hstep
    · cases hstep
  | recordRestart m now =>
    simp only [Tasks.step] at hstep
    split at hstep
    · rename_i nodeId pid hw hm
      obtain rfl := Option.some.inj hstep
      exact h.recordRestart hw hm
    · cases hstep

/-- **A node is alone also when it is restarted**, if it is not stopped in its backoff. -/
theorem alone_of_patient {as : List TaskAction} (h : Trace Tasks.step Patient initial as s) :
    Alone s :=
  (h.invariant (fun _ _ _ hpatient hi hstep => hi.step hpatient hstep) inv_initial).alone

/-- A process that exits by itself, with this code. -/
def startAndExit (exitCode : ℤ) : List TaskAction :=
  [.startNode 0, .startSpawned (some 1), .startDone .timeout 0, .exit 1 (some exitCode),
    .observe 1, .check 1]

def crashAndRestart : List TaskAction :=
  startAndExit 1 ++ [.recordCrash 1 5, .respawn 1 (some 2), .recordRestart 1 6]

/-- Whether a step that stops no node is patient. -/
def patientCheck (s : Tasks) : TaskAction → Bool
  | .recordCrash m _ => (s.monitors m).all fun monitor => s.sup.isRunning monitor.nodeId &&
    decide ((s.sup.nodePid monitor.nodeId).map .crashed = some monitor.phase)
  | .stopNode _ => false
  | a => decide (s.Careful a)

theorem patient_of_check {a : TaskAction} (h : s.patientCheck a = true) : s.Patient a := by
  cases a with
  | recordCrash m now =>
    intro monitor hm
    rw [Option.mem_def] at hm
    simpa [patientCheck, hm] using h
  | stopNode nodeId => cases h
  | stopDone => exact (of_decide_eq_true h : s.Careful .stopDone)
  | recordClean m now => exact (of_decide_eq_true h : s.Careful (.recordClean m now))
  | startDone health now =>
    cases health with
    | failed => exact (of_decide_eq_true h : s.Careful (.startDone .failed now))
    | exited | timeout => trivial
  | _ => trivial

theorem alone_of_patient_restart : ∃ s, s.procs 1 = some ⟨0, some (some 1)⟩ ∧
    s.procs 2 = some ⟨0, none⟩ ∧ Trace Tasks.step Patient initial crashAndRestart s ∧ Alone s := by
  have hrun : (crashAndRestart.foldlM (guarded Tasks.step fun s a => s.patientCheck a) initial).map
      (fun s => (s.procs 1, s.procs 2)) = some (some ⟨0, some (some 1)⟩, some ⟨0, none⟩) := by
    decide
  obtain ⟨s, hs, hprocs⟩ := Option.map_eq_some_iff.1 hrun
  obtain ⟨h1, h2⟩ := Prod.mk.inj hprocs
  have htrace := (trace_iff.2 hs).mono fun _ _ => patient_of_check
  exact ⟨s, h1, h2, htrace, alone_of_patient htrace⟩

/-! ## Runs without a crash -/

/-- No monitor is about to restart its node. -/
def Calm (s : Tasks) : Prop :=
  ∀ m monitor, s.monitors m = some monitor → ¬ monitor.phase.Restarting

theorem Calm.not_backoff (h : s.Calm) (nodeId : ℕ) : ¬ s.Backoff nodeId := by
  rintro ⟨m, monitor, hm, -, hr⟩
  exact h m monitor hm hr

theorem Calm.setMonitor {monitor : Option Monitor} (h : s.Calm)
    (hmonitor : ∀ b ∈ monitor, ¬ b.phase.Restarting) (m : ℕ) : (s.setMonitor m monitor).Calm := by
  intro m' monitor' hm'
  rcases setMonitor_eq_some hm' with ⟨-, rfl⟩ | ⟨-, hm'⟩
  · exact hmonitor monitor' rfl
  · exact h m' monitor' hm'

theorem Calm.exit (h : s.Calm) (hstep : s.exit pid exitCode = some s') : s'.Calm := by
  rw [Tasks.exit] at hstep
  split at hstep
  · obtain rfl := Option.some.inj hstep
    exact h
  · cases hstep

/-- Without a crash there is no restart. -/
theorem Calm.step {a : TaskAction} (h : s.Calm) (hcareful : s.Careful a)
    (hstep : s.step a = some s') : s'.Calm := by
  cases a with
  | startNode nodeId =>
    simp only [Tasks.step, Tasks.startNode] at hstep
    split_ifs at hstep <;> obtain rfl := Option.some.inj hstep <;> exact h
  | startSpawned spawned =>
    simp only [Tasks.step] at hstep
    split at hstep
    · cases spawned with
      | none =>
        obtain rfl := Option.some.inj hstep
        exact h
      | some pid =>
        simp only [Tasks.startSpawned, Tasks.spawn] at hstep
        split at hstep
        · cases hstep
        · obtain rfl := Option.some.inj hstep
          exact h
    · cases hstep
  | startDone health now =>
    simp only [Tasks.step] at hstep
    split at hstep
    · rename_i nodeId pid _
      cases health with
      | exited =>
        simp only [Tasks.startDone] at hstep
        split at hstep
        · obtain rfl := Option.some.inj hstep
          exact h
        · cases hstep
      | failed =>
        obtain rfl := Option.some.inj hstep
        exact h
      | timeout =>
        obtain rfl := Option.some.inj hstep
        refine Calm.setMonitor (s := { s with
          sup := (s.sup.startNode nodeId (.running pid) now).1, writer := none }) h ?_ pid
        rintro b ⟨⟩
        exact id
    · cases hstep
  | stopNode nodeId =>
    simp only [Tasks.step, Tasks.stopNode] at hstep
    split_ifs at hstep
    split at hstep <;> obtain rfl := Option.some.inj hstep <;> exact h
  | stopKill exitCode =>
    simp only [Tasks.step] at hstep
    split at hstep
    · exact h.exit hstep
    · cases hstep
  | stopDone =>
    simp only [Tasks.step] at hstep
    split at hstep
    · obtain rfl := Option.some.inj hstep
      exact h
    · cases hstep
  | exit pid exitCode => exact h.exit hstep
  | observe m =>
    simp only [Tasks.step, Tasks.observe] at hstep
    split at hstep
    · split at hstep
      · obtain rfl := Option.some.inj hstep
        refine h.setMonitor ?_ m
        rintro b ⟨⟩
        exact id
      · cases hstep
    · cases hstep
  | check m =>
    simp only [Tasks.step, Tasks.check] at hstep
    split at hstep
    · obtain rfl := Option.some.inj hstep
      split
      · exact h.setMonitor (by simp) m
      · exact h.setMonitor (by simp) m
      · refine h.setMonitor ?_ m
        rintro b ⟨⟩
        split_ifs <;> exact id
    · cases hstep
  | recordClean m now =>
    simp only [Tasks.step] at hstep
    split at hstep
    · rename_i nodeId pid _ _
      obtain rfl := Option.some.inj hstep
      exact Calm.setMonitor (s := { s with
        sup := s.sup.updateState nodeId .stopped none now
        recorded := Function.update s.recorded pid true }) h (by simp) m
    · cases hstep
  | recordCrash m now => exact hcareful.elim
  | respawn m pid =>
    simp only [Tasks.step] at hstep
    split at hstep
    · rename_i hm
      exact absurd trivial (h m _ hm)
    · cases hstep
  | recordRestart m now =>
    simp only [Tasks.step] at hstep
    split at hstep
    · rename_i hm
      exact absurd trivial (h m _ hm)
    · cases hstep

theorem Careful.patient {a : TaskAction} (h : s.Careful a) (hcalm : s.Calm) : s.Patient a := by
  cases a with
  | stopNode nodeId => exact hcalm.not_backoff nodeId
  | recordCrash m now => exact h.elim
  | startDone health now => cases health <;> exact h
  | _ => exact h

/-- **Supervisor exclusivity**, in the runs without a crash and without a stale record. -/
theorem exclusive_of_careful {as : List TaskAction} (h : Trace Tasks.step Careful initial as s) :
    Exclusive s := by
  obtain ⟨hinv, hcalm⟩ := h.invariant (I := fun s => Inv s ∧ s.Calm)
    (fun _ _ _ hcareful hi hstep =>
      ⟨hi.1.step (hcareful.patient hi.2) hstep, hi.2.step hcareful hstep⟩) ⟨inv_initial, nofun⟩
  exact hinv.exclusive hcalm.not_backoff

def cleanExit : List TaskAction := startAndExit 0 ++ [.recordClean 1 5]

theorem exclusive_of_careful_clean :
    ∃ s, s.procs 1 = some ⟨0, some (some 0)⟩ ∧ Trace Tasks.step Careful initial cleanExit s ∧
      Exclusive s := by
  have hrun : (cleanExit.foldlM (guarded Tasks.step Careful) initial).map
      (fun s => s.procs 1) = some (some ⟨0, some (some 0)⟩) := by decide
  obtain ⟨s, hs, hprocs⟩ := Option.map_eq_some_iff.1 hrun
  have htrace := trace_iff.2 hs
  exact ⟨s, hprocs, htrace, exclusive_of_careful htrace⟩

/-- The node is stopped between its crash and its restart. -/
def stoppedInBackoff : List TaskAction :=
  startAndExit 1 ++ [.recordCrash 1 5, .stopNode 0, .stopDone, .respawn 1 (some 2)]

theorem not_exclusive :
    ¬ ∀ as s, Runs Tasks.step initial as s → Exclusive s := by
  intro h
  have hrun : (stoppedInBackoff.foldlM Tasks.step initial).map
      (fun s => (s.stopped 0, s.procs 2)) = some (true, some ⟨0, none⟩) := by decide
  obtain ⟨s, hs, heq⟩ := Option.map_eq_some_iff.1 hrun
  obtain ⟨hstopped, hprocs⟩ := Prod.mk.inj heq
  have := (h _ s (runs_iff.2 hs)).stopped 2 _ hprocs rfl
  rw [hstopped] at this
  cases this

end Tasks

end Autonomi.Daemon
