/-
  No update of the registry is lost, and the daemon's copy follows the file.
-/
import Autonomi.Daemon.Mutations
import Autonomi.Lib.Serial

namespace Autonomi.Daemon

open Lib

/-- The commit makes `r'` of `r`, and the counter of ids does not wrap. -/
def Commit.Makes (c : Commit) (r r' : NodeRegistry) : Prop :=
  c.op.apply r = .ok r' ∧ c.op.Fits r

/-- A node has been there all the time since an earlier state of the file, or its id was not in use
    then, nor before since the last reset. -/
def NeverReused (commits : List (Commit × NodeRegistry)) : Prop :=
  ∀ later earlier, commits = later ++ earlier → (∀ e ∈ later, e.1.op ≠ .reset) →
    ∀ id config, (newest .empty commits).nodes id = some config →
      (newest .empty earlier).nodes id = some config ∨
        ∀ e ∈ earlier.takeWhile fun e => e.1.op ≠ .reset, e.2.nodes id = none

section Commits

variable {commits : List (Commit × NodeRegistry)}

/-- The registries that are changed are numbered. -/
theorem serial_numbered (h : Serial Commit.Makes .empty commits) :
    Serial (fun c r r' => c.Makes r r' ∧ r.Numbered) .empty commits :=
  h.and_invariant NodeRegistry.numbered_empty fun _ _ _ hr hmakes =>
    RegistryOp.numbered_apply hr hmakes.2 hmakes.1

theorem numbered_newest (h : Serial Commit.Makes .empty commits) :
    (newest .empty commits).Numbered :=
  h.invariant NodeRegistry.numbered_empty fun _ _ _ hr hmakes =>
    RegistryOp.numbered_apply hr hmakes.2 hmakes.1

/-- The ids in use since the last reset are below the counter. -/
theorem lt_nextId (h : Serial Commit.Makes .empty commits) :
    ∀ e ∈ commits.takeWhile (fun e => e.1.op ≠ .reset), ∀ id config, e.2.nodes id = some config →
      id < (newest .empty commits).nextId := by
  induction h with
  | nil => simp
  | @cons e es hes hmakes ih =>
    intro e' he' id config hid
    by_cases hop : e.1.op = .reset
    · simp [hop] at he'
    · rw [List.takeWhile_cons_of_pos (by simpa using hop)] at he'
      have hext := RegistryOp.extends_apply (numbered_newest hes) hmakes.2 hop hmakes.1
      rcases List.mem_cons.1 he' with rfl | he'
      · exact (numbered_newest (.cons hes hmakes) id config hid).1
      · exact (ih e' he' id config hid).trans_le hext.nextId

theorem neverReused (h : Serial Commit.Makes .empty commits) : NeverReused commits := by
  rintro later earlier rfl hlater id config hid
  have hearlier : Serial Commit.Makes .empty earlier := h.of_append
  have hext : (newest .empty earlier).Extends (newest .empty (later ++ earlier)) :=
    (serial_numbered h).relation .refl .trans fun e he _ hmakes =>
      RegistryOp.extends_apply hmakes.2 hmakes.1.2 (hlater e he) hmakes.1.1
  rcases hext.nodes id config hid with hold | hnew
  · exact Or.inl hold
  · refine Or.inr fun e he => ?_
    by_contra hsome
    obtain ⟨config', hconfig'⟩ := Option.ne_none_iff_exists'.1 hsome
    have := lt_nextId hearlier e he id config' hconfig'
    omega

end Commits

namespace Mutations

variable {T : Type*} {J : Json T} {s s' : Mutations T} {k j process : ℕ} {c : RegistryCall}
  {r : NodeRegistry}

/-! ## What is to hold -/

/-- The registry after the last rename. -/
def current (s : Mutations T) : NodeRegistry := newest .empty s.commits

def Committed (s : Mutations T) (k : ℕ) : Prop := ∃ e ∈ s.commits, e.1.call = k

/-- All mutations go through the daemon's handlers. -/
def AllDaemon (s : Mutations T) : Prop := ∀ e ∈ s.commits, e.1.process = daemon

/-- **No lost update.** The contents of the file are those of a serial execution of the calls that
    succeed, each once; no id is used for two nodes between resets; the file can be loaded; and with
    no handler in progress the daemon's copy is what is in the file. -/
structure Sound (J : Json T) (s : Mutations T) : Prop where
  serial : Serial (fun c r r' => c.op.apply r = .ok r') .empty s.commits
  file : NodeRegistry.load J s.file .none = some s.current
  results : ∀ k ok, s.results k = some ok → (ok = true ↔ s.Committed k)
  once : (s.commits.map fun e => e.1.call).Nodup
  ids : ∀ id config, s.current.nodes id = some config → config.id = id
  reused : NeverReused s.commits
  copy : s.AllDaemon → (∀ k c, s.calls k = some c → c.process ≠ daemon) →
    ∀ r, s.registry = some r → r = s.current

/-- No load misses a file that exists or fails in a handler, no handler is dropped between the
    mutation and the refresh of the copy, and the counter of ids does not wrap. -/
def Careful (s : Mutations T) : MutationAction T → Prop
  | .load _ fault | .startDaemon fault => fault = .stat → s.file.isNone
  | .refresh _ fault => fault.Harmless s.file
  | .change k => ∀ c ∈ s.calls k, ∀ r ∈ c.phase.loaded?, c.op.Fits r
  | .drop k => ∀ c ∈ s.calls k, c.phase.isRefreshing = false
  | _ => True

instance (s : Mutations T) : ∀ a, Decidable (s.Careful a)
  | .load _ fault | .startDaemon fault => inferInstanceAs (Decidable (fault = .stat → s.file.isNone))
  | .refresh _ fault => inferInstanceAs (Decidable (fault.Harmless s.file))
  | .change k =>
    inferInstanceAs (Decidable (∀ c ∈ s.calls k, ∀ r ∈ c.phase.loaded?, c.op.Fits r))
  | .drop k => inferInstanceAs (Decidable (∀ c ∈ s.calls k, c.phase.isRefreshing = false))
  | .begin _ _ _ | .lock _ | .writePart _ _ | .write _ | .rename _ | .unlock _ | .refreshDone _
  | .fail _ | .crash _ => .isTrue trivial

/-! ## The invariant -/

/-- Some handler is in such a phase. -/
def Handler (s : Mutations T) (p : CallPhase → Prop) : Prop :=
  ∃ k c, s.calls k = some c ∧ c.process = daemon ∧ p c.phase

/-- What is true of a call in progress. -/
def PhaseOk (J : Json T) (s : Mutations T) (k : ℕ) (c : RegistryCall) : CallPhase → Prop
  | .waiting => ¬ s.Committed k
  | .locked => s.lock = some k ∧ ¬ s.Committed k
  | .loaded r => s.lock = some k ∧ ¬ s.Committed k ∧ r = s.current
  | .changed r => s.lock = some k ∧ ¬ s.Committed k ∧ (⟨k, c.process, c.op⟩ : Commit).Makes s.current r
  | .written r => s.lock = some k ∧ ¬ s.Committed k ∧
    (⟨k, c.process, c.op⟩ : Commit).Makes s.current r ∧
      ∃ text, s.tmp = some text ∧ J.toStringPretty r = some text
  | .renamed => s.lock = some k ∧ s.Committed k
  | .refreshing => c.process = daemon ∧ s.Committed k
  | .refreshed fresh => c.process = daemon ∧ s.Committed k ∧ s.registryLock = some k ∧
    (s.AllDaemon → fresh = some s.current ∨ s.Handler CallPhase.Pending)

def CallOk (J : Json T) (s : Mutations T) (k : ℕ) (c : RegistryCall) : Prop :=
  s.results k = none ∧ PhaseOk J s k c c.phase

/-- The file has the registry that was saved last. -/
def FileOk (J : Json T) (file : Option T) : List (Commit × NodeRegistry) → Prop
  | [] => file = none
  | e :: _ => ∃ text, file = some text ∧ J.toStringPretty e.2 = some text

structure Inv (J : Json T) (s : Mutations T) : Prop where
  serial : Serial Commit.Makes .empty s.commits
  file : FileOk J s.file s.commits
  results : ∀ k ok, s.results k = some ok → (ok = true ↔ s.Committed k)
  once : (s.commits.map fun e => e.1.call).Nodup
  calls : ∀ k c, s.calls k = some c → s.CallOk J k c
  copy : s.AllDaemon → ∀ r, s.registry = some r →
    r = s.current ∨ s.Handler CallPhase.InProgress

theorem load_of_fileOk {fault : Fault} (h : FileOk J s.file s.commits)
    (hfault : fault.Harmless s.file) : NodeRegistry.load J s.file fault = some s.current := by
  unfold FileOk at h
  split at h
  · rename_i hcommits
    rw [h, current, hcommits]
    cases fault <;> rfl
  · rename_i e es hcommits
    obtain ⟨text, hfile, htext⟩ := h
    rcases hfault with rfl | hnone
    · rw [hfile, current, hcommits]
      exact J.fromStr_eq _ _ htext
    · rw [hfile] at hnone
      cases hnone

theorem Inv.sound (h : Inv J s) : Sound J s where
  serial := h.serial.mono fun _ _ _ hmakes => hmakes.1
  file := load_of_fileOk h.file (Or.inl rfl)
  results := h.results
  once := h.once
  ids := fun id config hid => (numbered_newest h.serial id config hid).2
  reused := neverReused h.serial
  copy := by
    intro hall hidle r hr
    rcases h.copy hall r hr with hcur | ⟨k, c, hk, hc, -⟩
    · exact hcur
    · exact absurd hc (hidle k c hk)

theorem inv_initial : Inv J (initial : Mutations T) := by
  constructor <;> simp [initial, FileOk, Serial.nil]

/-! ## The steps of a call -/

theorem Handler.of_calls {p : CallPhase → Prop} (h : s.Handler p)
    (hcalls : ∀ j, j ≠ k → s'.calls j = s.calls j)
    (hk : ∀ c, s.calls k = some c → c.process = daemon → p c.phase → s'.Handler p) :
    s'.Handler p := by
  obtain ⟨j, c, hj, hc, hp⟩ := h
  by_cases hjk : j = k
  · subst hjk
    exact hk c hj hc hp
  · exact ⟨j, c, by rw [hcalls j hjk, hj], hc, hp⟩

/-- What a step of the call `k` leaves as it was. -/
structure Frame (s s' : Mutations T) (k : ℕ) : Prop where
  file : s'.file = s.file
  commits : s'.commits = s.commits
  calls : ∀ j, j ≠ k → s'.calls j = s.calls j
  results : ∀ j, j ≠ k → s'.results j = s.results j
  lock : ∀ j, j ≠ k → s.lock = some j → s'.lock = some j ∧ s'.tmp = s.tmp
  registryLock : ∀ j, j ≠ k → s.registryLock = some j →
    s'.registryLock = some j ∧ (s.Handler CallPhase.Pending → s'.Handler CallPhase.Pending)

theorem Frame.committed (h : Frame s s' k) : s'.Committed j ↔ s.Committed j := by
  rw [Committed, Committed, h.commits]

theorem Frame.current (h : Frame s s' k) : s'.current = s.current := by
  rw [Mutations.current, Mutations.current, h.commits]

theorem Frame.allDaemon (h : Frame s s' k) : s'.AllDaemon ↔ s.AllDaemon := by
  rw [AllDaemon, AllDaemon, h.commits]

theorem CallOk.frame (hf : Frame s s' k) (hjk : j ≠ k) (h : s.CallOk J j c) : s'.CallOk J j c := by
  obtain ⟨hres, hphase⟩ := h
  refine ⟨by rw [hf.results j hjk, hres], ?_⟩
  unfold PhaseOk at hphase ⊢
  simp only [hf.committed, hf.current, hf.allDaemon]
  split at hphase
  · exact hphase
  · exact ⟨(hf.lock j hjk hphase.1).1, hphase.2⟩
  · exact ⟨(hf.lock j hjk hphase.1).1, hphase.2⟩
  · exact ⟨(hf.lock j hjk hphase.1).1, hphase.2⟩
  · obtain ⟨hlock, hnot, hmakes, htext⟩ := hphase
    refine ⟨(hf.lock j hjk hlock).1, hnot, hmakes, ?_⟩
    rwa [(hf.lock j hjk hlock).2]
  · exact ⟨(hf.lock j hjk hphase.1).1, hphase.2⟩
  · exact hphase
  · obtain ⟨hc, hcommitted, hlock, hfresh⟩ := hphase
    obtain ⟨hlock', hpending⟩ := hf.registryLock j hjk hlock
    exact ⟨hc, hcommitted, hlock', fun hall => (hfresh hall).imp_right hpending⟩

theorem Inv.of_frame (h : Inv J s) (hf : Frame s s' k)
    (hk : ∀ c, s'.calls k = some c → s'.CallOk J k c)
    (hresult : ∀ ok, s'.results k = some ok → (ok = true ↔ s'.Committed k))
    (hcopy : s.AllDaemon → ∀ r, s'.registry = some r →
      r = s.current ∨ s'.Handler CallPhase.InProgress) : Inv J s' where
  serial := by rw [hf.commits]; exact h.serial
  file := by rw [hf.file, hf.commits]; exact h.file
  results := by
    intro j ok hj
    by_cases hjk : j = k
    · subst hjk
      exact hresult ok hj
    · rw [hf.committed]
      exact h.results j ok (by rw [← hf.results j hjk, hj])
  once := by rw [hf.commits]; exact h.once
  calls := by
    intro j c hj
    by_cases hjk : j = k
    · subst hjk
      exact hk c hj
    · exact (h.calls j c (by rw [← hf.calls j hjk, hj])).frame hf hjk
  copy := by
    rw [hf.allDaemon, hf.current]
    exact hcopy

/-- The call `k` goes on to another phase. -/
theorem Inv.advance {phase : CallPhase} (h : Inv J s) (hk : s.calls k = some c)
    (hcalls : s'.calls = Function.update s.calls k (some { c with phase := phase }))
    (hfile : s'.file = s.file) (hcommits : s'.commits = s.commits)
    (hresults : s'.results = s.results) (hregistry : s'.registry = s.registry)
    (hlock : ∀ j, j ≠ k → s.lock = some j → s'.lock = some j ∧ s'.tmp = s.tmp)
    (hregistryLock : ∀ j, j ≠ k → s.registryLock = some j →
      s'.registryLock = some j ∧ (CallPhase.Pending c.phase → CallPhase.Pending phase))
    (hprogress : CallPhase.InProgress c.phase → CallPhase.InProgress phase)
    (hphase : PhaseOk J s' k c phase) : Inv J s' := by
  have hself : s'.calls k = some { c with phase := phase } := by rw [hcalls, Function.update_self]
  have hother : ∀ j, j ≠ k → s'.calls j = s.calls j := by
    intro j hjk
    rw [hcalls, Function.update_of_ne hjk]
  -- what some handler has still to do, some handler has still to do
  have hhandler : ∀ {p : CallPhase → Prop}, (p c.phase → p phase) → s.Handler p → s'.Handler p := by
    intro p hp hs
    refine hs.of_calls hother fun c' hc' hdaemon hpc => ?_
    obtain rfl := Option.some.inj (hk.symm.trans hc')
    exact ⟨k, _, hself, hdaemon, hp hpc⟩
  refine h.of_frame ⟨hfile, hcommits, hother, fun j _ => by rw [hresults], hlock, ?_⟩ ?_ ?_ ?_
  · intro j hjk hj
    obtain ⟨hlock', hpending⟩ := hregistryLock j hjk hj
    exact ⟨hlock', hhandler hpending⟩
  · intro c' hc'
    obtain rfl := Option.some.inj (hself.symm.trans hc')
    exact ⟨by rw [hresults]; exact (h.calls k c hk).1, hphase⟩
  · intro ok hok
    rw [hresults, (h.calls k c hk).1] at hok
    cases hok
  · intro hall r hr
    rw [hregistry] at hr
    exact (h.copy hall r hr).imp_right (hhandler hprogress)

/-- The call `k` is over. -/
theorem Inv.leave (h : Inv J s) (hk : s.calls k = some c)
    (hcalls : s'.calls = Function.update s.calls k none)
    (hfile : s'.file = s.file) (hcommits : s'.commits = s.commits)
    (hresults : ∀ j, j ≠ k → s'.results j = s.results j)
    (hresult : ∀ ok, s'.results k = some ok → (ok = true ↔ s.Committed k))
    (hlock : ∀ j, j ≠ k → s.lock = some j → s'.lock = some j ∧ s'.tmp = s.tmp)
    (hregistryLock : ∀ j, j ≠ k → s.registryLock = some j →
      s'.registryLock = some j ∧ ¬ (c.process = daemon ∧ CallPhase.Pending c.phase))
    (hcopy : s.AllDaemon → ∀ r, s'.registry = some r →
      r = s.current ∨ s'.Handler CallPhase.InProgress) : Inv J s' := by
  have hself : s'.calls k = none := by rw [hcalls, Function.update_self]
  have hother : ∀ j, j ≠ k → s'.calls j = s.calls j := by
    intro j hjk
    rw [hcalls, Function.update_of_ne hjk]
  have hf : Frame s s' k := by
    refine ⟨hfile, hcommits, hother, hresults, hlock, fun j hjk hj => ?_⟩
    obtain ⟨hlock', hnot⟩ := hregistryLock j hjk hj
    refine ⟨hlock', fun hs => hs.of_calls hother fun c' hc' hdaemon hpending => ?_⟩
    obtain rfl := Option.some.inj (hk.symm.trans hc')
    exact absurd ⟨hdaemon, hpending⟩ hnot
  refine h.of_frame hf ?_ (fun ok hok => by rw [hf.committed]; exact hresult ok hok) hcopy
  intro c' hc'
  rw [hself] at hc'
  cases hc'

theorem not_some_ne {o : Option ℕ} (h : o = some k) (hjk : j ≠ k) : o ≠ some j := by
  rintro hj
  rw [h] at hj
  exact hjk (Option.some.inj hj).symm

/-- A load without a fault that matters reads the last commit. -/
theorem Inv.load_eq {fault : Fault} (h : Inv J s) (hfault : fault = .stat → s.file.isNone)
    (hload : NodeRegistry.load J s.file fault = some r) : r = s.current := by
  have hharmless : fault.Harmless s.file := by
    cases fault with
    | none => exact Or.inl rfl
    | stat => exact Or.inr (hfault rfl)
    | read =>
      cases hfile : s.file with
      | none => exact Or.inr rfl
      | some text =>
        rw [hfile] at hload
        cases hload
  rw [load_of_fileOk h.file hharmless] at hload
  exact (Option.some.inj hload).symm

variable {op : RegistryOp} {fault : Fault} {fresh : Option NodeRegistry} {text : T} {ok : Bool}

theorem Inv.begin (h : Inv J s) (hunused : s.Unused k) (process : ℕ) (op : RegistryOp) :
    Inv J (s.setCall k (some ⟨process, op, .waiting⟩)) := by
  obtain ⟨hcalls, hresults, hcommits⟩ := hunused
  rw [Option.isNone_iff_eq_none] at hcalls hresults
  have hother : ∀ j, j ≠ k → (s.setCall k (some ⟨process, op, .waiting⟩)).calls j = s.calls j :=
    fun j hjk => Function.update_of_ne hjk _ _
  have hhandler : ∀ {p : CallPhase → Prop}, s.Handler p →
      (s.setCall k (some ⟨process, op, .waiting⟩)).Handler p := by
    intro p hs
    refine hs.of_calls hother fun c hc => ?_
    rw [hcalls] at hc
    cases hc
  refine h.of_frame ⟨rfl, rfl, hother, fun _ _ => rfl, fun _ _ hj => ⟨hj, rfl⟩,
    fun _ _ hj => ⟨hj, hhandler⟩⟩ ?_ ?_ fun hall r hr => (h.copy hall r hr).imp_right hhandler
  · intro c hc
    simp only [setCall, Function.update_self, Option.some.injEq] at hc
    subst hc
    refine ⟨hresults, ?_⟩
    rintro ⟨e, he, hek⟩
    exact hcommits e he hek
  · intro ok hok
    rw [show s.results k = _ from hok] at hresults
    cases hresults

theorem Inv.lock (h : Inv J s) (hk : s.calls k = some ⟨process, op, .waiting⟩)
    (hlock : s.lock = none) :
    Inv J { s.setPhase k ⟨process, op, .waiting⟩ .locked with lock := some k } := by
  refine h.advance hk rfl rfl rfl rfl rfl ?_ (fun _ _ hj => ⟨hj, False.elim⟩) False.elim ?_
  · intro j _ hj
    rw [hlock] at hj
    cases hj
  · exact ⟨rfl, (h.calls k _ hk).2⟩

theorem Inv.load (h : Inv J s) (hk : s.calls k = some ⟨process, op, .locked⟩)
    (hfault : fault = .stat → s.file.isNone)
    (hload : NodeRegistry.load J s.file fault = some r) :
    Inv J (s.setPhase k ⟨process, op, .locked⟩ (.loaded r)) := by
  obtain ⟨hlock, hnot⟩ := (h.calls k _ hk).2
  exact h.advance hk rfl rfl rfl rfl rfl (fun _ _ hj => ⟨hj, rfl⟩) (fun _ _ hj => ⟨hj, False.elim⟩)
    False.elim ⟨hlock, hnot, h.load_eq hfault hload⟩

theorem Inv.change {r' : NodeRegistry} (h : Inv J s)
    (hk : s.calls k = some ⟨process, op, .loaded r⟩) (hfits : op.Fits r)
    (happly : op.apply r = .ok r') :
    Inv J (s.setPhase k ⟨process, op, .loaded r⟩ (.changed r')) := by
  obtain ⟨hlock, hnot, rfl⟩ := (h.calls k _ hk).2
  exact h.advance hk rfl rfl rfl rfl rfl (fun _ _ hj => ⟨hj, rfl⟩) (fun _ _ hj => ⟨hj, False.elim⟩)
    False.elim ⟨hlock, hnot, happly, hfits⟩

/-- What a crash leaves of the temporary file is not looked at. -/
theorem Inv.writePart (h : Inv J s) (hk : s.calls k = some ⟨process, op, .changed r⟩) (text : T) :
    Inv J { s with tmp := some text } := by
  obtain ⟨hlock, hnot, hmakes⟩ := (h.calls k _ hk).2
  refine h.advance hk (Function.update_eq_self_iff.2 hk.symm).symm rfl rfl rfl rfl ?_
    (fun _ _ hj => ⟨hj, id⟩) id ⟨hlock, hnot, hmakes⟩
  intro j hjk hj
  exact absurd hj (not_some_ne hlock hjk)

theorem Inv.write (h : Inv J s) (hk : s.calls k = some ⟨process, op, .changed r⟩)
    (htext : J.toStringPretty r = some text) :
    Inv J { s.setPhase k ⟨process, op, .changed r⟩ (.written r) with tmp := some text } := by
  obtain ⟨hlock, hnot, hmakes⟩ := (h.calls k _ hk).2
  refine h.advance hk rfl rfl rfl rfl rfl ?_ (fun _ _ hj => ⟨hj, False.elim⟩) False.elim
    ⟨hlock, hnot, hmakes, text, rfl, htext⟩
  intro j hjk hj
  exact absurd hj (not_some_ne hlock hjk)

theorem Inv.unlock_daemon (h : Inv J s) (hk : s.calls k = some ⟨process, op, .renamed⟩)
    (hdaemon : process = daemon) :
    Inv J { s.setPhase k ⟨process, op, .renamed⟩ .refreshing with lock := none } := by
  obtain ⟨hlock, hcommitted⟩ := (h.calls k _ hk).2
  refine h.advance hk rfl rfl rfl rfl rfl ?_ (fun _ _ hj => ⟨hj, id⟩) id ⟨hdaemon, hcommitted⟩
  intro j hjk hj
  exact absurd hj (not_some_ne hlock hjk)

theorem Inv.refresh (h : Inv J s) (hk : s.calls k = some ⟨process, op, .refreshing⟩)
    (hlock : s.registryLock = none) (hfault : fault.Harmless s.file) :
    Inv J { s.setPhase k ⟨process, op, .refreshing⟩
      (.refreshed (NodeRegistry.load J s.file fault)) with registryLock := some k } := by
  obtain ⟨hdaemon, hcommitted⟩ := (h.calls k _ hk).2
  refine h.advance hk rfl rfl rfl rfl rfl (fun _ _ hj => ⟨hj, rfl⟩) ?_ id
    ⟨hdaemon, hcommitted, rfl, fun _ => Or.inl (load_of_fileOk h.file hfault)⟩
  intro j _ hj
  rw [hlock] at hj
  cases hj

theorem lock_finish (ok : Bool) (hjk : j ≠ k) (hj : s.lock = some j) :
    (s.finish k ok).lock = some j := by
  rw [finish, if_neg (by rw [hj]; exact fun h => hjk (Option.some.inj h)), hj]

theorem results_finish_self : (s.finish k ok).results k = some ok := Function.update_self _ _ _

theorem Inv.unlock_other (h : Inv J s) (hk : s.calls k = some ⟨process, op, .renamed⟩)
    (hprocess : process ≠ daemon) : Inv J (s.finish k true) := by
  obtain ⟨hlock, hcommitted⟩ := (h.calls k _ hk).2
  refine h.leave hk rfl rfl rfl (fun j hjk => Function.update_of_ne hjk _ _) ?_
    (fun j hjk hj => ⟨lock_finish _ hjk hj, rfl⟩) (fun _ _ hj => ⟨hj, fun hd => hprocess hd.1⟩) ?_
  · intro ok hok
    obtain rfl := Option.some.inj (results_finish_self.symm.trans hok)
    exact ⟨fun _ => hcommitted, fun _ => rfl⟩
  · intro hall r hr
    refine (h.copy hall r hr).imp_right fun hs => ?_
    refine hs.of_calls (fun j hjk => Function.update_of_ne hjk _ _) fun c hc hdaemon _ => ?_
    rw [hk] at hc
    obtain rfl := Option.some.inj hc
    exact absurd hdaemon hprocess

theorem Inv.refreshDone (h : Inv J s) (hk : s.calls k = some ⟨process, op, .refreshed fresh⟩) :
    Inv J { s.finish k true with registry := fresh.or s.registry, registryLock := none } := by
  obtain ⟨hdaemon, hcommitted, hlock, hfresh⟩ := (h.calls k _ hk).2
  refine h.leave hk rfl rfl rfl (fun j hjk => Function.update_of_ne hjk _ _) ?_
    (fun j hjk hj => ⟨lock_finish true hjk hj, rfl⟩)
    (fun j hjk hj => absurd hj (not_some_ne hlock hjk)) ?_
  · intro ok hok
    obtain rfl := Option.some.inj (results_finish_self.symm.trans hok)
    exact ⟨fun _ => hcommitted, fun _ => rfl⟩
  · intro hall r hr
    rcases hfresh hall with rfl | hpending
    · exact Or.inl (Option.some.inj hr).symm
    -- another handler has made a mutation since, and is to refresh the copy
    · refine Or.inr ?_
      obtain ⟨j, c, hj, hc, hp⟩ := hpending
      have hjk : j ≠ k := by
        rintro rfl
        rw [hk] at hj
        obtain rfl := Option.some.inj hj
        exact hp
      exact ⟨j, c, (Function.update_of_ne hjk _ _).trans hj, hc, hp.inProgress⟩

theorem Inv.fail (h : Inv J s) (hk : s.calls k = some c)
    (hphase : ¬ CallPhase.InProgress c.phase) : Inv J (s.finish k false) := by
  have hnot : ¬ s.Committed k := by
    have hok := (h.calls k c hk).2
    unfold PhaseOk at hok
    split at hok
    · exact hok
    · exact hok.2
    · exact hok.2.1
    · exact hok.2.1
    · exact hok.2.1
    all_goals
      rename_i heq
      rw [heq] at hphase
      exact absurd trivial hphase
  refine h.leave hk rfl rfl rfl (fun j hjk => Function.update_of_ne hjk _ _) ?_
    (fun j hjk hj => ⟨lock_finish _ hjk hj, rfl⟩)
    (fun _ _ hj => ⟨hj, fun hd => hphase hd.2.inProgress⟩) ?_
  · intro ok hok
    obtain rfl := Option.some.inj (results_finish_self.symm.trans hok)
    exact ⟨fun hf => absurd hf (by decide), fun hcommitted => absurd hcommitted hnot⟩
  · intro hall r hr
    refine (h.copy hall r hr).imp_right fun hs => ?_
    refine hs.of_calls (fun j hjk => Function.update_of_ne hjk _ _) fun c' hc' _ hp => ?_
    obtain rfl := Option.some.inj (hk.symm.trans hc')
    exact absurd hp hphase

theorem Inv.drop (h : Inv J s) (hk : s.calls k = some ⟨process, op, .waiting⟩) :
    Inv J (s.setCall k none) := by
  refine h.leave hk rfl rfl rfl (fun _ _ => rfl) ?_ (fun _ _ hj => ⟨hj, rfl⟩)
    (fun _ _ hj => ⟨hj, fun hd => hd.2⟩) ?_
  · intro ok hok
    have hres := (h.calls k _ hk).1
    rw [show s.results k = _ from hok] at hres
    cases hres
  · intro hall r hr
    refine (h.copy hall r hr).imp_right fun hs => ?_
    refine hs.of_calls (fun j hjk => Function.update_of_ne hjk _ _) fun c' hc' _ hp => ?_
    rw [hk] at hc'
    obtain rfl := Option.some.inj hc'
    exact hp.elim

theorem Inv.rename (h : Inv J s) (hk : s.calls k = some ⟨process, op, .written r⟩) :
    Inv J { s.setPhase k ⟨process, op, .written r⟩ .renamed with
      file := s.tmp
      tmp := none
      commits := (⟨k, process, op⟩, r) :: s.commits } := by
  obtain ⟨hres, hlock, hnot, hmakes, text, htmp, htext⟩ := h.calls k _ hk
  set s' : Mutations T := { s.setPhase k ⟨process, op, .written r⟩ .renamed with
    file := s.tmp
    tmp := none
    commits := (⟨k, process, op⟩, r) :: s.commits } with hs'
  have hself : s'.calls k = some ⟨process, op, .renamed⟩ := Function.update_self _ _ _
  have hother : ∀ j, j ≠ k → s'.calls j = s.calls j := fun j hjk => Function.update_of_ne hjk _ _
  have hcommitted : ∀ j, s'.Committed j ↔ k = j ∨ s.Committed j := by
    intro j
    simp [Committed, hs']
  have hprocess : s'.AllDaemon → process = daemon := fun hall => hall _ List.mem_cons_self
  exact
    { serial := .cons h.serial hmakes
      file := ⟨text, htmp, htext⟩
      results := by
        intro j ok hj
        rw [hcommitted, h.results j ok hj]
        constructor
        · exact Or.inr
        · rintro (rfl | hj')
          · rw [show s.results k = _ from hj] at hres
            cases hres
          · exact hj'
      once := by
        refine List.nodup_cons.2 ⟨?_, h.once⟩
        intro hmem
        obtain ⟨e, he, hek⟩ := List.mem_map.1 hmem
        exact hnot ⟨e, he, hek⟩
      calls := by
        intro j c hj
        by_cases hjk : j = k
        · subst hjk
          obtain rfl := Option.some.inj (hself.symm.trans hj)
          exact ⟨hres, hlock, (hcommitted j).2 (Or.inl rfl)⟩
        · rw [hother j hjk] at hj
          obtain ⟨hresj, hphase⟩ := h.calls j c hj
          refine ⟨hresj, ?_⟩
          unfold PhaseOk at hphase ⊢
          split at hphase
          · exact fun hj' => hphase (((hcommitted j).1 hj').resolve_left (Ne.symm hjk))
          -- the lock is with the call that renames
          · exact absurd hphase.1 (not_some_ne hlock hjk)
          · exact absurd hphase.1 (not_some_ne hlock hjk)
          · exact absurd hphase.1 (not_some_ne hlock hjk)
          · exact absurd hphase.1 (not_some_ne hlock hjk)
          · exact absurd hphase.1 (not_some_ne hlock hjk)
          · exact ⟨hphase.1, (hcommitted j).2 (Or.inr hphase.2)⟩
          · obtain ⟨hdaemon, hcom, hreg, -⟩ := hphase
            exact ⟨hdaemon, (hcommitted j).2 (Or.inr hcom), hreg, fun hall =>
              Or.inr ⟨k, _, hself, hprocess hall, trivial⟩⟩
      copy := fun hall _ _ => Or.inr ⟨k, _, hself, hprocess hall, trivial⟩ }

/-! ## Crashes and the start of the daemon -/

theorem Inv.crash (h : Inv J s) (process : ℕ) : Inv J (s.crash process) := by
  have hcalls : ∀ j c, (s.crash process).calls j = some c ↔
      s.calls j = some c ∧ c.process ≠ process := by
    intro j c
    simp [Mutations.crash, Option.filter_eq_some_iff]
  have hhandler : ∀ {p : CallPhase → Prop}, process ≠ daemon → s.Handler p →
      (s.crash process).Handler p := by
    rintro p hne ⟨j, c, hj, hc, hp⟩
    exact ⟨j, c, (hcalls j c).2 ⟨hj, fun heq => hne (heq.symm.trans hc)⟩, hc, hp⟩
  refine
    { h with
      calls := ?_
      copy := ?_ }
  · intro j c hj
    obtain ⟨hj, hne⟩ := (hcalls j c).1 hj
    have hlock : s.lock = some j → (s.crash process).lock = some j := by
      intro hlock
      simp [Mutations.crash, hlock, Option.filter_eq_some_iff, hj, hne]
    obtain ⟨hres, hphase⟩ := h.calls j c hj
    refine ⟨hres, ?_⟩
    unfold PhaseOk at hphase ⊢
    split at hphase
    · exact hphase
    · exact ⟨hlock hphase.1, hphase.2⟩
    · exact ⟨hlock hphase.1, hphase.2⟩
    · exact ⟨hlock hphase.1, hphase.2⟩
    · exact ⟨hlock hphase.1, hphase.2⟩
    · exact ⟨hlock hphase.1, hphase.2⟩
    · exact hphase
    · obtain ⟨hdaemon, hcom, hreg, hfresh⟩ := hphase
      have hprocess : process ≠ daemon := fun heq => hne (hdaemon.trans heq.symm)
      refine ⟨hdaemon, hcom, ?_, fun hall => (hfresh hall).imp_right (hhandler hprocess)⟩
      simp only [Mutations.crash, if_neg hprocess, hreg]
  · intro hall r hr
    by_cases hprocess : process = daemon
    · simp [Mutations.crash, hprocess] at hr
    · simp only [Mutations.crash, if_neg hprocess] at hr
      exact (h.copy hall r hr).imp_right (hhandler hprocess)

theorem Inv.startDaemon (h : Inv J s) (hfault : fault = .stat → s.file.isNone)
    (hload : NodeRegistry.load J s.file fault = some r) : Inv J { s with registry := some r } :=
  { h with
    copy := by
      rintro - r' ⟨⟩
      exact Or.inl (h.load_eq hfault hload) }

/-! ## Runs -/

theorem Inv.callStep {a : MutationAction T} (h : Inv J s) (hk : s.calls k = some c)
    (hcall : call a = some k) (hcareful : s.Careful a) (hstep : s.callStep J k c a = some s') :
    Inv J s' := by
  obtain ⟨process, op, phase⟩ := c
  cases a with
  | begin => cases hcall
  | crash => cases hcall
  | startDaemon => cases hcall
  | lock =>
    simp only [Mutations.callStep] at hstep
    split at hstep
    · obtain rfl := Option.some.inj hstep
      exact h.lock hk (by assumption)
    · cases hstep
  | load _ fault =>
    simp only [Mutations.callStep] at hstep
    split at hstep
    · obtain ⟨r, hload, rfl⟩ := Option.map_eq_some_iff.1 hstep
      exact h.load hk hcareful hload
    · cases hstep
  | change =>
    obtain rfl := Option.some.inj hcall
    have hcareful := hcareful _ hk
    simp only [Mutations.callStep] at hstep
    split at hstep
    · split at hstep
      · obtain rfl := Option.some.inj hstep
        exact h.change hk (hcareful _ rfl) (by assumption)
      · cases hstep
    · cases hstep
  | writePart _ text =>
    simp only [Mutations.callStep] at hstep
    split at hstep
    · obtain rfl := Option.some.inj hstep
      exact h.writePart hk text
    · cases hstep
  | write =>
    simp only [Mutations.callStep] at hstep
    split at hstep
    · obtain ⟨text, htext, rfl⟩ := Option.map_eq_some_iff.1 hstep
      exact h.write hk htext
    · cases hstep
  | rename =>
    simp only [Mutations.callStep] at hstep
    split at hstep
    · obtain rfl := Option.some.inj hstep
      exact h.rename hk
    · cases hstep
  | unlock =>
    simp only [Mutations.callStep] at hstep
    split at hstep
    · split_ifs at hstep with hprocess
      · obtain rfl := Option.some.inj hstep
        exact h.unlock_daemon hk hprocess
      · obtain rfl := Option.some.inj hstep
        exact h.unlock_other hk hprocess
    · cases hstep
  | refresh _ fault =>
    simp only [Mutations.callStep] at hstep
    split at hstep
    · obtain rfl := Option.some.inj hstep
      exact h.refresh hk (by assumption) hcareful
    · cases hstep
  | refreshDone =>
    simp only [Mutations.callStep] at hstep
    split at hstep
    · obtain rfl := Option.some.inj hstep
      exact h.refreshDone hk
    · cases hstep
  | fail =>
    simp only [Mutations.callStep] at hstep
    split at hstep
    case h_6 => cases hstep
    all_goals
      obtain rfl := Option.some.inj hstep
      exact h.fail hk id
  | drop =>
    obtain rfl := Option.some.inj hcall
    have hcareful := hcareful _ hk
    simp only [Mutations.callStep] at hstep
    split at hstep
    · split_ifs at hstep
      obtain rfl := Option.some.inj hstep
      exact h.drop hk
    · cases hcareful
    · cases hstep

theorem Inv.step {a : MutationAction T} (h : Inv J s) (hcareful : s.Careful a)
    (hstep : s.step J a = some s') : Inv J s' := by
  cases a with
  | begin k process op =>
    simp only [Mutations.step] at hstep
    split_ifs at hstep with hunused
    obtain rfl := Option.some.inj hstep
    exact h.begin hunused.1 process op
  | crash process =>
    obtain rfl := Option.some.inj hstep
    exact h.crash process
  | startDaemon fault =>
    simp only [Mutations.step] at hstep
    split at hstep
    · obtain ⟨r, hload, rfl⟩ := Option.map_eq_some_iff.1 hstep
      exact h.startDaemon hcareful hload
    · cases hstep
  | _ =>
    simp only [Mutations.step] at hstep
    obtain ⟨k, hcall, hstep⟩ := Option.bind_eq_some_iff.1 hstep
    obtain ⟨c, hk, hstep⟩ := Option.bind_eq_some_iff.1 hstep
    exact h.callStep hk hcall hcareful hstep

/-- **No registry update is lost**, whatever else fails or crashes. -/
theorem sound_of_careful {as : List (MutationAction T)}
    (h : Trace (Mutations.step J) Careful initial as s) : Sound J s :=
  (h.invariant (fun _ _ _ hcareful hi hstep => hi.step hcareful hstep) inv_initial).sound

/-- A serializer whose texts are what they denote. -/
def plainJson : Json NodeRegistry := ⟨some, some, fun _ _ h => h.symm⟩

/-- A node is added by the daemon, whose refresh of its copy meets this fault. -/
def addOne (fault : Fault) : List (MutationAction NodeRegistry) :=
  [.startDaemon .none,
    .begin 0 daemon (.addNodes ⟨1, "", none, none, none, none, 1, [], []⟩ ["data"] "0.1.0"),
    .lock 0, .load 0 .none, .change 0, .write 0, .rename 0, .unlock 0, .refresh 0 fault,
    .refreshDone 0]

/-- A node is added by the daemon, and one by another process, which has its turn while the daemon
    reads its copy again. -/
def addTwo : List (MutationAction NodeRegistry) :=
  [.startDaemon .none,
    .begin 0 daemon (.addNodes ⟨1, "", none, none, none, none, 1, [], []⟩ ["data"] "0.1.0"),
    .begin 1 7 (.addNodes ⟨1, "", none, none, none, none, 1, [], []⟩ ["more"] "0.1.0"),
    .lock 0, .load 0 .none, .change 0, .write 0, .rename 0, .unlock 0, .lock 1, .load 1 .none,
    .refresh 0 .none, .change 1, .write 1, .rename 1, .refreshDone 0, .unlock 1]

theorem sound_of_careful_two :
    ∃ s, (s.results 0 = some true ∧ s.results 1 = some true) ∧
      ((s.current.nodes 1).isSome ∧ (s.current.nodes 2).isSome) ∧
      Trace (Mutations.step plainJson) Careful initial addTwo s ∧ Sound plainJson s := by
  have hrun : ((addTwo.foldlM (guarded (Mutations.step plainJson) Careful) initial).map fun s =>
      (decide (s.results 0 = some true ∧ s.results 1 = some true),
        (s.current.nodes 1).isSome && (s.current.nodes 2).isSome)) = some (true, true) := by decide
  obtain ⟨s, hs, hends⟩ := Option.map_eq_some_iff.1 hrun
  obtain ⟨hresults, hnodes⟩ := Prod.mk.inj hends
  have htrace := trace_iff.2 hs
  exact ⟨s, of_decide_eq_true hresults, Bool.and_eq_true_iff.1 hnodes, htrace,
    sound_of_careful htrace⟩

/-- The node is in the file and not in the copy. -/
def stale : Mutations NodeRegistry :=
  ((addOne .read).foldlM (Mutations.step plainJson) initial).get (by decide)

theorem not_sound :
    ¬ ∀ as s, Runs (Mutations.step plainJson) initial as s → Sound plainJson s := by
  intro h
  have hsound : Sound plainJson stale := h (addOne .read) _ (runs_iff.2 (Option.some_get _).symm)
  have hall : ∀ e ∈ stale.commits, e.1.process = daemon := by decide
  have hidle : ∀ k c, stale.calls k = some c → c.process ≠ daemon := by
    rintro (_ | k) c hc
    · cases hc
    · cases hc
  have hnode : (stale.current.nodes 1).isSome = true := by decide
  rw [← hsound.copy hall hidle .empty rfl] at hnode
  cases hnode

end Mutations

end Autonomi.Daemon
