/-
  What the services are told by the cache they share, and how often they ask the API.
-/
import Autonomi.Upgrade.ReleaseCache

namespace Autonomi.Upgrade.ReleaseCache

open Lib

variable {V : Type} {J : Json} {ttl : ℕ} {fs fs' : Files FileName} {s s' : Host V} {k : ℕ}
  {c : Call V} {data json : Bytes} {releases : List GitHubRelease} {i : ℕ}

/-! ## The files -/

/-- No name by which a file is opened for writing refers to `i`. -/
def Frozen (fs : Files FileName) (i : ℕ) : Prop := i < fs.next ∧ fs.ino .tmpPath ≠ some i

/-- The files that nobody writes stay as they are. -/
def Keeps (fs fs' : Files FileName) : Prop :=
  ∀ i, Frozen fs i → Frozen fs' i ∧ fs'.data i = fs.data i

theorem frozen_cacheFile (h : fs.ino .cacheFile = some i) : Frozen fs i :=
  ⟨fs.bound _ _ h, fun ht => nomatch fs.inj _ _ i h ht⟩

theorem Keeps.refl : Keeps fs fs := fun _ h => ⟨h, rfl⟩

theorem Keeps.create : Keeps fs (fs.create .tmpPath).1 := fun _ h =>
  ⟨⟨h.1.trans_le Files.next_le_create, Files.create_ne h.2 h.1⟩, Files.data_create_of_ne h.2 h.1⟩

theorem Keeps.write {dst off : ℕ} {d : Bytes} (hdst : fs.ino .tmpPath = some dst) :
    Keeps fs (fs.write dst off d) := by
  intro i h
  refine ⟨h, Files.data_write_of_ne ?_⟩
  rintro rfl
  exact h.2 hdst

theorem Keeps.remove : Keeps fs (fs.remove .cacheFile) := by
  intro i h
  refine ⟨⟨h.1, ?_⟩, rfl⟩
  rw [Files.ino_remove_of_ne (by simp)]
  exact h.2

theorem Keeps.rename : Keeps fs (fs.rename .tmpPath .cacheFile) := fun i h =>
  ⟨⟨h.1, by simp [Files.rename]⟩, rfl⟩

/-! ## What is kept -/

/-- The call that made the container had asked the API, and this was the answer. -/
def Stamp.Answered (s : Host V) (w : Stamp) : Prop :=
  ∃ f ∈ s.fetches, f.service = w.service ∧ f.repo = w.cached.repo ∧
    f.releases = w.cached.releases ∧ w.began ≤ f.time ∧ f.time ≤ w.cached.fetchedAtEpochSecs

/-- The text of a container that was made. -/
def Genuine (J : Json) (s : Host V) (data : Bytes) : Prop :=
  ∃ w ∈ s.stamps, J.toString w.cached = .ok data

/-- The call itself has been answered so. -/
def Own (s : Host V) (k : ℕ) (c : Call V) (releases : List GitHubRelease) : Prop :=
  ∃ f ∈ s.fetches, f.service = k ∧ f.repo = c.query.repo ∧ f.releases = releases ∧
    c.began ≤ f.time ∧ f.time ≤ s.now

/-- What a call has at hand was answered by the API, and what it has written so far is there. -/
def CallOk (J : Json) (s : Host V) (k : ℕ) (c : Call V) : Prop :=
  match c.phase with
  | .opening _ | .locking | .fetching _ => True
  | .reading _ src => Frozen s.fs src ∧ Genuine J s (s.fs.data src)
  | .stamping releases => Own s k c releases
  | .creating releases json => Own s k c releases ∧ Genuine J s json
  | .writing releases json dst off =>
    Own s k c releases ∧ Genuine J s json ∧ s.fs.ino .tmpPath = some dst ∧
      off ≤ json.length ∧ s.fs.data dst = json.take off
  | .removing releases | .replacing releases =>
    Own s k c releases ∧
      ∃ dst, s.fs.ino .tmpPath = some dst ∧ Genuine J s (s.fs.data dst)

/-- The releases that a call has found are an answer of the API for its repository: one that came
    while it ran, or one that a call had asked for and has dated less than `ttl` seconds before. -/
def FoundOk (ttl : ℕ) (s : Host V) (r : Found V) : Prop :=
  ∀ releases, r.releases = .ok releases →
    if r.cached then ∃ w ∈ s.stamps, w.cached.repo = r.query.repo ∧ w.cached.releases = releases ∧
      w.Answered s ∧ w.cached.fetchedAtEpochSecs ≤ r.time ∧
      r.time < w.cached.fetchedAtEpochSecs + ttl
    else ∃ f ∈ s.fetches, f.service = r.service ∧ f.repo = r.query.repo ∧
      f.releases = releases ∧ r.began ≤ f.time ∧ f.time ≤ r.time

structure Inv (J : Json) (ttl : ℕ) (s : Host V) : Prop where
  lock : ∀ k, ∀ c ∈ s.calls k, c.phase.locked → s.lock = some k
  cacheFile : ∀ i, s.fs.ino .cacheFile = some i → Genuine J s (s.fs.data i)
  calls : ∀ k, ∀ c ∈ s.calls k, CallOk J s k c
  found : ∀ r ∈ s.found, FoundOk ttl s r
  began : ∀ k, ∀ c ∈ s.calls k, c.began ≤ s.now
  stamps : ∀ w ∈ s.stamps, w.Answered s ∧ w.cached.fetchedAtEpochSecs ≤ s.now

/-- Time goes on, and what the API answered and what was made of it stays. -/
structure Grows (s s' : Host V) : Prop where
  now : s.now ≤ s'.now
  fetches : s.fetches ⊆ s'.fetches
  stamps : s.stamps ⊆ s'.stamps

theorem Stamp.Answered.grows {w : Stamp} (h : w.Answered s) (hgrows : Grows s s') :
    w.Answered s' := by
  obtain ⟨f, hf, h⟩ := h
  exact ⟨f, hgrows.fetches hf, h⟩

theorem Genuine.grows (h : Genuine J s data) (hgrows : Grows s s') : Genuine J s' data := by
  obtain ⟨w, hw, hdata⟩ := h
  exact ⟨w, hgrows.stamps hw, hdata⟩

theorem Own.grows (h : Own s k c releases) (hgrows : Grows s s') : Own s' k c releases := by
  obtain ⟨f, hf, hk, hrepo, hreleases, hbegan, hnow⟩ := h
  exact ⟨f, hgrows.fetches hf, hk, hrepo, hreleases, hbegan, hnow.trans hgrows.now⟩

theorem FoundOk.grows {r : Found V} (h : FoundOk ttl s r) (hgrows : Grows s s') :
    FoundOk ttl s' r := by
  intro releases hr
  have := h releases hr
  split_ifs at this ⊢
  · obtain ⟨w, hw, hrepo, hreleases, hanswered, h⟩ := this
    exact ⟨w, hgrows.stamps hw, hrepo, hreleases, hanswered.grows hgrows, h⟩
  · obtain ⟨f, hf, h⟩ := this
    exact ⟨f, hgrows.fetches hf, h⟩

/-- A call that holds no lock only reads. -/
theorem CallOk.frame (h : CallOk J s k c) (hc : c.phase.locked = false) (hgrows : Grows s s')
    (hfs : Keeps s.fs s'.fs) : CallOk J s' k c := by
  obtain ⟨query, began, phase⟩ := c
  cases phase with
  | reading locked src =>
    obtain ⟨hsrc, hdata⟩ := h
    obtain ⟨hsrc', heq⟩ := hfs src hsrc
    exact ⟨hsrc', heq ▸ hdata.grows hgrows⟩
  | opening | locking | fetching => trivial
  | stamping | creating | writing | removing | replacing => cases hc

/-- Where the files stay as they are, so does the call. -/
theorem CallOk.grows (h : CallOk J s k c) (hgrows : Grows s s') (hfs : s'.fs = s.fs) :
    CallOk J s' k c := by
  obtain ⟨query, began, phase⟩ := c
  cases phase with
  | reading locked src => exact ⟨hfs ▸ h.1, hfs ▸ h.2.grows hgrows⟩
  | opening | locking | fetching => trivial
  | stamping => exact Own.grows h hgrows
  | creating => exact ⟨h.1.grows hgrows, h.2.grows hgrows⟩
  | writing releases json dst off =>
    obtain ⟨hown, hjson, hino, hoff, hdata⟩ := h
    exact ⟨hown.grows hgrows, hjson.grows hgrows, hfs ▸ hino, hoff, hfs ▸ hdata⟩
  | removing | replacing =>
    obtain ⟨hown, dst, hino, hdata⟩ := h
    exact ⟨hown.grows hgrows, dst, hfs ▸ hino, hfs ▸ hdata.grows hgrows⟩

/-! ## The steps -/

theorem Grows.of_eq (hnow : s'.now = s.now) (hfetches : s'.fetches = s.fetches)
    (hstamps : s'.stamps = s.stamps) : Grows s s' :=
  ⟨hnow.ge, hfetches ▸ fun _ h => h, hstamps ▸ fun _ h => h⟩

/-- **A step of one call.** The others hold no lock, or the files stay as they are. -/
theorem Inv.advance {x : Option (Call V)} (h : Inv J ttl s) (hk : s.calls k = some c)
    (hcalls : s'.calls = Function.update s.calls k x) (hgrows : Grows s s')
    (hstamps : s'.stamps = s.stamps) (hfs : s'.fs = s.fs ∨ c.phase.locked ∧ Keeps s.fs s'.fs)
    (hlock : s'.lock = s.lock ∨ c.phase.locked ∨ s.lock = none)
    (hcacheFile : ∀ i, s'.fs.ino .cacheFile = some i → Genuine J s' (s'.fs.data i))
    (hx : ∀ d ∈ x, CallOk J s' k d ∧ d.began = c.began ∧ (d.phase.locked → s'.lock = some k))
    (hfound : ∀ r ∈ s'.found, r ∈ s.found ∨ FoundOk ttl s' r) : Inv J ttl s' := by
  have hself : ∀ d, s'.calls k = some d → d ∈ x := by
    intro d hd
    rwa [hcalls, Function.update_self] at hd
  have hother : ∀ j ≠ k, s'.calls j = s.calls j := by
    intro j hj
    rw [hcalls, Function.update_of_ne hj]
  -- only one call holds the lock
  have hfree : c.phase.locked → ∀ j ≠ k, ∀ d ∈ s.calls j, d.phase.locked = false := by
    intro hc j hj d hd
    by_contra hne
    have hjk := (h.lock j d hd (by simpa using hne)).symm.trans (h.lock k c hk hc)
    exact hj (Option.some.inj hjk)
  constructor
  · intro j d hd hlocked
    by_cases hj : j = k
    · subst hj
      exact (hx d (hself d hd)).2.2 hlocked
    · rw [Option.mem_def, hother j hj] at hd
      have hjlock := h.lock j d hd hlocked
      rcases hlock with hlock | hc | hlock
      · rw [hlock, hjlock]
      · rw [hfree hc j hj d hd] at hlocked
        cases hlocked
      · rw [hlock] at hjlock
        cases hjlock
  · exact hcacheFile
  · intro j d hd
    by_cases hj : j = k
    · subst hj
      exact (hx d (hself d hd)).1
    · rw [Option.mem_def, hother j hj] at hd
      rcases hfs with hfs | ⟨hc, hfs⟩
      · exact (h.calls j d hd).grows hgrows hfs
      · exact (h.calls j d hd).frame (hfree hc j hj d hd) hgrows hfs
  · intro r hr
    rcases hfound r hr with hr | hr
    · exact (h.found r hr).grows hgrows
    · exact hr
  · intro j d hd
    by_cases hj : j = k
    · subst hj
      rw [(hx d (hself d hd)).2.1]
      exact (h.began j c hk).trans hgrows.now
    · rw [Option.mem_def, hother j hj] at hd
      exact (h.began j d hd).trans hgrows.now
  · intro w hw
    obtain ⟨hanswered, htime⟩ := h.stamps w (hstamps ▸ hw)
    exact ⟨hanswered.grows hgrows, htime.trans hgrows.now⟩

/-- The call goes on, and nothing else changes. -/
theorem Inv.goto {phase : Phase} (h : Inv J ttl s) (hk : s.calls k = some c)
    (hphase : CallOk J s k { c with phase := phase }) (hlocked : phase.locked = c.phase.locked) :
    Inv J ttl (s.goto k c phase) := by
  refine h.advance hk rfl (.of_eq rfl rfl rfl) rfl (.inl rfl) (.inl rfl) h.cacheFile ?_
    fun r hr => .inl hr
  rintro d ⟨⟩
  refine ⟨hphase, rfl, fun hd => ?_⟩
  exact h.lock k c hk (by rwa [← hlocked])

theorem Inv.missed {locked : Bool} (h : Inv J ttl s) (hk : s.calls k = some c)
    (hlocked : c.phase.locked = locked) : Inv J ttl (s.missed k c locked) := by
  subst hlocked
  refine h.goto hk ?_ ?_
  · cases c.phase.locked <;> trivial
  · cases c.phase.locked <;> rfl

theorem Inv.drop (h : Inv J ttl s) (hk : s.calls k = some c) : Inv J ttl (s.drop k c) := by
  refine h.advance hk rfl (.of_eq rfl rfl rfl) rfl (.inl rfl) ?_ h.cacheFile (by rintro d ⟨⟩)
    fun r hr => .inl hr
  by_cases hc : c.phase.locked
  · exact .inr (.inl hc)
  · exact .inl (if_neg hc)

/-- The call ends with what it has found. -/
theorem Inv.finish {cached : Bool} {found : Except String (List GitHubRelease)} (h : Inv J ttl s)
    (hk : s.calls k = some c) (hfound : FoundOk ttl s ⟨k, c.query, c.began, s.now, cached, found⟩) :
    Inv J ttl (s.finish k c cached found) := by
  have hdrop := h.drop hk
  refine ⟨hdrop.lock, hdrop.cacheFile, fun j d hd => ?_, ?_, hdrop.began, hdrop.stamps⟩
  · exact (hdrop.calls j d hd).grows (.of_eq rfl rfl rfl) rfl
  · intro r hr
    rcases List.mem_cons.1 hr with rfl | hr
    · exact hfound
    · exact h.found r hr

theorem foundOk_error {cached : Bool} {e : String} :
    FoundOk ttl s ⟨k, c.query, c.began, s.now, cached, .error e⟩ := nofun

theorem Own.foundOk (h : Own s k c releases) :
    FoundOk ttl s ⟨k, c.query, c.began, s.now, false, .ok releases⟩ := by
  rintro _ ⟨⟩
  exact h

/-- The call that holds the lock changes the files, but not what the cache file has. -/
theorem Inv.files {phase : Phase} (h : Inv J ttl s) (hk : s.calls k = some c)
    (hc : c.phase.locked) (hfs : Keeps s.fs fs')
    (hcacheFile : ∀ i, fs'.ino .cacheFile = some i → s.fs.ino .cacheFile = some i)
    (hphase : CallOk J { s with fs := fs' } k { c with phase := phase }) :
    Inv J ttl ({ s with fs := fs' }.goto k c phase) := by
  refine h.advance hk rfl (.of_eq rfl rfl rfl) rfl (.inr ⟨hc, hfs⟩) (.inl rfl) ?_ ?_
    fun r hr => .inl hr
  · intro i hi
    have hi := hcacheFile i hi
    have hdata : fs'.data i = s.fs.data i := (hfs i (frozen_cacheFile hi)).2
    exact hdata.symm ▸ h.cacheFile i hi
  · rintro d ⟨⟩
    exact ⟨hphase, rfl, fun _ => h.lock k c hk hc⟩

theorem Inv.create {json : Bytes} (h : Inv J ttl s) (hk : s.calls k = some c)
    (hphase : c.phase = .creating releases json) :
    Inv J ttl ({ s with fs := (s.fs.create .tmpPath).1 }.goto k c
      (.writing releases json (s.fs.create .tmpPath).2 0)) := by
  have hok := h.calls k c hk
  rw [CallOk, hphase] at hok
  refine h.files hk (by rw [hphase]; rfl) .create (fun i hi => ?_) ?_
  · rwa [Files.ino_create_of_ne (by simp)] at hi
  · exact ⟨hok.1, hok.2, Files.ino_create_self, Nat.zero_le _, Files.data_create_self⟩

theorem Inv.remove (h : Inv J ttl s) (hk : s.calls k = some c)
    (hphase : c.phase = .removing releases) :
    Inv J ttl ({ s with fs := s.fs.remove .cacheFile }.goto k c (.replacing releases)) := by
  have hok := h.calls k c hk
  rw [CallOk, hphase] at hok
  obtain ⟨hown, dst, hino, hdata⟩ := hok
  refine h.files hk (by rw [hphase]; rfl) .remove (fun i hi => ?_) ?_
  · rw [Files.ino_remove_self] at hi
    cases hi
  · refine ⟨hown, dst, ?_, hdata⟩
    rwa [Files.ino_remove_of_ne (by simp)]

/-- The temporary file takes the place of the cache file. -/
theorem Inv.replace (h : Inv J ttl s) (hk : s.calls k = some c)
    (hphase : c.phase = .replacing releases) :
    Inv J ttl ({ s with fs := s.fs.rename .tmpPath .cacheFile }.finish k c false (.ok releases)) := by
  have hok := h.calls k c hk
  rw [CallOk, hphase] at hok
  obtain ⟨hown, dst, hino, hdata⟩ := hok
  have hc : c.phase.locked := by rw [hphase]; rfl
  refine h.advance hk rfl (.of_eq rfl rfl rfl) rfl (.inr ⟨hc, .rename⟩) (.inr (.inl hc)) ?_
    (by rintro d ⟨⟩) ?_
  · intro i hi
    obtain rfl : dst = i := Option.some.inj (hino.symm.trans hi)
    exact hdata
  · intro r hr
    rcases List.mem_cons.1 hr with rfl | hr
    · exact .inr hown.foundOk
    · exact .inl hr

/-- What `read_if_valid` accepts is fresh. -/
theorem readIfValid_eq_some {now : ℕ} {repo : String} (hJ : J.Lawful) (hdata : Genuine J s data)
    (h : readIfValid J ttl now repo data = some releases) :
    ∃ w ∈ s.stamps, w.cached.repo = repo ∧ w.cached.releases = releases ∧
      now < w.cached.fetchedAtEpochSecs + ttl := by
  obtain ⟨w, hw, hjson⟩ := hdata
  simp only [readIfValid, hJ _ _ hjson, Option.bind_eq_bind, Option.bind_some,
    Option.bind_eq_some_iff, Option.guard_eq_some', Option.pure_def, Option.some.injEq] at h
  obtain ⟨-, hrepo, -, hage, hreleases⟩ := h
  exact ⟨w, hw, hrepo, hreleases, by omega⟩

/-- A container is made for the answer that the call has. -/
theorem Inv.stamp (h : Inv J ttl s) (hown : Own s k c releases) :
    Inv J ttl { s with
      stamps := ⟨k, c.began, c.query.repo, s.now, releases⟩ :: s.stamps } := by
  have hgrows : Grows s { s with
      stamps := ⟨k, c.began, c.query.repo, s.now, releases⟩ :: s.stamps } :=
    ⟨le_rfl, fun _ h => h, List.subset_cons_self _ _⟩
  refine ⟨h.lock, fun i hi => (h.cacheFile i hi).grows hgrows,
    fun j d hd => (h.calls j d hd).grows hgrows rfl, fun r hr => (h.found r hr).grows hgrows,
    h.began, fun w hw => ?_⟩
  rcases List.mem_cons.1 hw with rfl | hw
  · exact ⟨hown, le_rfl⟩
  · exact h.stamps w hw

theorem Inv.next (hJ : J.Lawful) (h : Inv J ttl s) (hk : s.calls k = some c)
    (hstep : s.next J ttl k c = some s') : Inv J ttl s' := by
  have hok := h.calls k c hk
  rw [CallOk] at hok
  rw [Host.next] at hstep
  cases hphase : c.phase <;> simp only [hphase] at hok hstep
  case opening locked =>
    cases hsrc : s.fs.ino .cacheFile with
    | none =>
      rw [hsrc] at hstep
      obtain rfl := Option.some.inj hstep
      exact h.missed hk (by rw [hphase]; rfl)
    | some src =>
      rw [hsrc] at hstep
      obtain rfl := Option.some.inj hstep
      exact h.goto hk ⟨frozen_cacheFile hsrc, h.cacheFile src hsrc⟩ (by rw [hphase]; rfl)
  case reading locked src =>
    cases hread : readIfValid J ttl s.now c.query.repo (s.fs.data src) with
    | none =>
      rw [hread] at hstep
      obtain rfl := Option.some.inj hstep
      exact h.missed hk (by rw [hphase]; rfl)
    | some releases =>
      rw [hread] at hstep
      obtain rfl := Option.some.inj hstep
      refine h.finish hk ?_
      rintro _ ⟨⟩
      obtain ⟨w, hw, hrepo, hreleases, hfresh⟩ := readIfValid_eq_some hJ hok.2 hread
      obtain ⟨hanswered, htime⟩ := h.stamps w hw
      exact ⟨w, hw, hrepo, hreleases, hanswered, htime, hfresh⟩
  case locking =>
    split_ifs at hstep with hfree
    obtain rfl := Option.some.inj hstep
    have hfree := Option.isNone_iff_eq_none.1 hfree
    refine h.advance hk rfl (.of_eq rfl rfl rfl) rfl (.inl rfl) (.inr (.inr hfree)) h.cacheFile ?_
      fun r hr => .inl hr
    rintro d ⟨⟩
    exact ⟨trivial, rfl, fun _ => rfl⟩
  case fetching => cases hstep
  case stamping releases =>
    cases hjson : J.toString ⟨c.query.repo, s.now, releases⟩ with
    | error e =>
      rw [hjson] at hstep
      obtain rfl := Option.some.inj hstep
      exact h.finish hk hok.foundOk
    | ok json =>
      rw [hjson] at hstep
      obtain rfl := Option.some.inj hstep
      exact (h.stamp hok).goto hk ⟨hok, _, List.mem_cons_self, hjson⟩ (by rw [hphase]; rfl)
  case creating releases json =>
    obtain rfl := Option.some.inj hstep
    exact h.create hk hphase
  case writing releases json dst off =>
    split_ifs at hstep with hoff
    obtain rfl := Option.some.inj hstep
    obtain ⟨hown, hjson, hino, -, hdata⟩ := hok
    refine h.goto hk ⟨hown, dst, hino, ?_⟩ (by rw [hphase]; rfl)
    rwa [hdata, List.take_of_length_le hoff]
  case removing releases =>
    obtain rfl := Option.some.inj hstep
    exact h.remove hk hphase
  case replacing releases =>
    obtain ⟨-, dst, hino, -⟩ := hok
    rw [hino] at hstep
    obtain rfl := Option.some.inj hstep
    exact h.replace hk hphase

theorem Inv.fail (h : Inv J ttl s) (hk : s.calls k = some c) (e : String) :
    Inv J ttl (s.fail k c e) := by
  have hok := h.calls k c hk
  rw [CallOk] at hok
  rw [Host.fail]
  cases hphase : c.phase <;> simp only [hphase] at hok ⊢
  case opening | reading => exact h.missed hk (by rw [hphase]; rfl)
  case locking | fetching => exact h.finish hk foundOk_error
  case stamping => exact h.finish hk hok.foundOk
  case creating | writing | replacing => exact h.finish hk hok.1.foundOk
  case removing => exact h.goto hk hok (by rw [hphase]; rfl)

theorem Inv.part {n : ℕ} (h : Inv J ttl s) (hk : s.calls k = some c)
    (hstep : s.part k c n = some s') : Inv J ttl s' := by
  have hok := h.calls k c hk
  rw [CallOk] at hok
  rw [Host.part] at hstep
  cases hphase : c.phase <;> simp only [hphase] at hok hstep <;> try cases hstep
  obtain ⟨hown, hjson, hino, hoff, hdata⟩ := hok
  refine h.files hk (by rw [hphase]; rfl) (.write hino) (fun i hi => hi) ?_
  refine ⟨hown, hjson, hino, ?_, ?_⟩
  · simp only [List.length_take, List.length_drop]
    omega
  · rw [Files.data_write_self, hdata, writeAt_take _ hoff]

theorem Inv.answer (h : Inv J ttl s) (hk : s.calls k = some c)
    (hstep : s.answer k c releases = some s') : Inv J ttl s' := by
  rw [Host.answer] at hstep
  cases hphase : c.phase <;> simp only [hphase] at hstep <;> try cases hstep
  rename_i locked
  have hgrows : Grows s { s with
      fetches := ⟨k, c.query.repo, releases, s.now, locked⟩ :: s.fetches } :=
    ⟨le_rfl, List.subset_cons_self _ _, fun _ h => h⟩
  have h' : Inv J ttl { s with
      fetches := ⟨k, c.query.repo, releases, s.now, locked⟩ :: s.fetches } :=
    ⟨h.lock, fun i hi => (h.cacheFile i hi).grows hgrows,
      fun j d hd => (h.calls j d hd).grows hgrows rfl, fun r hr => (h.found r hr).grows hgrows,
      h.began, fun w hw => ⟨(h.stamps w hw).1.grows hgrows, (h.stamps w hw).2⟩⟩
  have hown : Own { s with
      fetches := ⟨k, c.query.repo, releases, s.now, locked⟩ :: s.fetches } k c releases :=
    ⟨_, List.mem_cons_self, rfl, rfl, rfl, h.began k c hk, le_rfl⟩
  cases locked
  · exact h'.finish hk hown.foundOk
  · exact h'.goto hk hown (by rw [hphase]; rfl)

theorem Inv.step {a : Action V} (hJ : J.Lawful) (h : Inv J ttl s)
    (hstep : s.step J ttl a = some s') : Inv J ttl s' := by
  cases a with
  | begin k query =>
    simp only [Host.step] at hstep
    split at hstep
    · obtain rfl := Option.some.inj hstep
      have hcalls : ∀ j d, Function.update s.calls k (some ⟨query, s.now,
          if query.cache then .opening false else .fetching false⟩) j = some d →
          (d.phase.locked = false ∧ d.began = s.now ∧ CallOk J s j d) ∨ s.calls j = some d := by
        intro j d hd
        by_cases hj : j = k
        · subst hj
          rw [Function.update_self] at hd
          obtain rfl := Option.some.inj hd
          cases query.cache <;> exact .inl ⟨rfl, rfl, trivial⟩
        · exact .inr (by rwa [Function.update_of_ne hj] at hd)
      refine ⟨fun j d hd hlocked => ?_, h.cacheFile, fun j d hd => ?_, h.found, fun j d hd => ?_,
        h.stamps⟩
      · rcases hcalls j d hd with ⟨hfree, -⟩ | hd
        · rw [hfree] at hlocked
          cases hlocked
        · exact h.lock j d hd hlocked
      · rcases hcalls j d hd with ⟨-, -, hok⟩ | hd
        · exact hok
        · exact h.calls j d hd
      · rcases hcalls j d hd with ⟨-, hbegan, -⟩ | hd
        · exact hbegan.le
        · exact h.began j d hd
    · cases hstep
  | next k =>
    obtain ⟨c, hk, hstep⟩ := Option.bind_eq_some_iff.1 hstep
    exact h.next hJ hk hstep
  | fail k e =>
    obtain ⟨c, hk, rfl⟩ := Option.map_eq_some_iff.1 hstep
    exact h.fail hk e
  | part k n =>
    obtain ⟨c, hk, hstep⟩ := Option.bind_eq_some_iff.1 hstep
    exact h.part hk hstep
  | answer k releases =>
    obtain ⟨c, hk, hstep⟩ := Option.bind_eq_some_iff.1 hstep
    exact h.answer hk hstep
  | crash k =>
    obtain ⟨c, hk, rfl⟩ := Option.map_eq_some_iff.1 hstep
    exact h.drop hk
  | tick secs =>
    obtain rfl := Option.some.inj hstep
    have hgrows : Grows s { s with now := s.now + secs } :=
      ⟨Nat.le_add_right _ _, fun _ h => h, fun _ h => h⟩
    exact ⟨h.lock, fun i hi => (h.cacheFile i hi).grows hgrows,
      fun j d hd => (h.calls j d hd).grows hgrows rfl, fun r hr => (h.found r hr).grows hgrows,
      fun j d hd => (h.began j d hd).trans hgrows.now,
      fun w hw => ⟨(h.stamps w hw).1.grows hgrows, (h.stamps w hw).2.trans hgrows.now⟩⟩

theorem inv_initial (now : ℕ) : Inv J ttl (.initial now : Host V) :=
  ⟨nofun, nofun, nofun, nofun, nofun, nofun⟩

/-- **What the services find is genuine and fresh**, in every run. -/
theorem found_genuine (hJ : J.Lawful) {now : ℕ} {as : List (Action V)}
    (h : Runs (Host.step J ttl) (.initial now) as s) : ∀ r ∈ s.found, FoundOk ttl s r :=
  (h.invariant (fun _ _ _ _ h hstep => h.step hJ hstep) (inv_initial now)).found

/-! ## How often the API is asked -/

/-- The call has an answer that is not in the cache yet. -/
def Phase.storing : Phase → Prop
  | .stamping _ | .creating _ _ | .writing _ _ _ _ | .removing _ | .replacing _ => True
  | _ => False

/-- Any two answers of the API, the latest first, are `ttl` seconds apart. -/
def Spaced (ttl : ℕ) (fetches : List Fetch) : Prop :=
  fetches.Pairwise fun new old => old.time + ttl ≤ new.time

/-- Every service has the cache and wants the releases of `repo`, and what fails is not the read
    under the lock, nor the way of an answer into the cache. -/
def Undisturbed (J : Json) (repo : String) (s : Host V) : Action V → Prop
  | .begin _ query => query.repo = repo ∧ query.cache
  | .next k => ∀ c ∈ s.calls k, ∀ releases, c.phase = .stamping releases →
    ∃ json, J.toString ⟨repo, s.now, releases⟩ = .ok json
  | .fail k _ => ∀ c ∈ s.calls k,
    match c.phase with
    | .opening locked | .reading locked _ => locked = false
    | .stamping _ | .creating _ _ | .writing _ _ _ _ | .replacing _ => False
    | .locking | .fetching _ | .removing _ => True
  | .crash k => ∀ c ∈ s.calls k, ¬ c.phase.storing
  | .part _ _ | .answer _ _ | .tick _ => True

/-- The text of a container that no answer is later than. -/
def Covers (J : Json) (repo : String) (fetches : List Fetch) (data : Bytes) : Prop :=
  ∃ cached, J.toString cached = .ok data ∧ cached.repo = repo ∧
    ∀ f ∈ fetches, f.time ≤ cached.fetchedAtEpochSecs

def CallSpaced (J : Json) (ttl : ℕ) (repo : String) (s : Host V) (c : Call V) : Prop :=
  match c.phase with
  | .opening _ | .locking | .stamping _ => True
  | .reading locked src => locked → s.fs.ino .cacheFile = some src
  | .fetching locked => locked ∧ ∀ f ∈ s.fetches, f.time + ttl ≤ s.now
  | .creating _ json | .writing _ json _ _ => Covers J repo s.fetches json
  | .removing _ | .replacing _ =>
    ∀ dst, s.fs.ino .tmpPath = some dst → Covers J repo s.fetches (s.fs.data dst)

/-- Unless there is a call that has an answer in hand, the cache file covers them all. -/
structure Quiet (J : Json) (ttl : ℕ) (repo : String) (s : Host V) : Prop where
  inv : Inv J ttl s
  spaced : Spaced ttl s.fetches
  times : ∀ f ∈ s.fetches, f.time ≤ s.now
  query : ∀ k, ∀ c ∈ s.calls k, c.query.repo = repo
  calls : ∀ k, ∀ c ∈ s.calls k, CallSpaced J ttl repo s c
  written : (∀ k, ∀ c ∈ s.calls k, ¬ c.phase.storing) → s.fetches ≠ [] →
    ∃ i, s.fs.ino .cacheFile = some i ∧ Covers J repo s.fetches (s.fs.data i)

variable {repo : String}

theorem Phase.locked_of_storing {phase : Phase} (h : phase.storing) : phase.locked := by
  cases phase <;> first | rfl | exact h.elim

/-- Of a call without the lock nothing depends on the state. -/
theorem CallSpaced.of_unlocked (h : CallSpaced J ttl repo s c) (hc : c.phase.locked = false) :
    CallSpaced J ttl repo s' c := by
  obtain ⟨query, began, phase⟩ := c
  cases phase with
  | opening | locking => trivial
  | reading locked src => exact fun hlocked => by rw [show locked = false from hc] at hlocked; cases hlocked
  | fetching locked => exact absurd (h.1.symm.trans hc) (by simp)
  | stamping | creating | writing | removing | replacing => cases hc

/-- While one call holds the lock, the others do not. -/
theorem Inv.unlocked (h : Inv J ttl s) (hk : s.calls k = some c) (hc : c.phase.locked) {j : ℕ}
    (hj : j ≠ k) {d : Call V} (hd : s.calls j = some d) : d.phase.locked = false := by
  by_contra hne
  have hjk := (h.lock j d hd (by simpa using hne)).symm.trans (h.lock k c hk hc)
  exact hj (Option.some.inj hjk)

/-- **A step of one call**, which holds the lock or leaves what the others see as it is. -/
theorem Quiet.advance {x : Option (Call V)} (h : Quiet J ttl repo s) (hinv : Inv J ttl s')
    (hk : s.calls k = some c) (hcalls : s'.calls = Function.update s.calls k x)
    (hsame : s'.fs = s.fs ∧ s'.fetches = s.fetches ∧ s'.now = s.now ∨ c.phase.locked)
    (hspaced : Spaced ttl s'.fetches) (htimes : ∀ f ∈ s'.fetches, f.time ≤ s'.now)
    (hx : ∀ d ∈ x, d.query = c.query ∧ CallSpaced J ttl repo s' d)
    (hwritten : (∀ j ≠ k, ∀ d ∈ s.calls j, ¬ d.phase.storing) → (∀ d ∈ x, ¬ d.phase.storing) →
      s'.fetches ≠ [] →
      ∃ i, s'.fs.ino .cacheFile = some i ∧ Covers J repo s'.fetches (s'.fs.data i)) :
    Quiet J ttl repo s' := by
  have hself : ∀ d, s'.calls k = some d → d ∈ x := by
    intro d hd
    rwa [hcalls, Function.update_self] at hd
  have hother : ∀ j ≠ k, s'.calls j = s.calls j := by
    intro j hj
    rw [hcalls, Function.update_of_ne hj]
  refine ⟨hinv, hspaced, htimes, fun j d hd => ?_, fun j d hd => ?_, fun hno => ?_⟩
  · by_cases hj : j = k
    · subst hj
      rw [(hx d (hself d hd)).1]
      exact h.query j c hk
    · rw [Option.mem_def, hother j hj] at hd
      exact h.query j d hd
  · by_cases hj : j = k
    · subst hj
      exact (hx d (hself d hd)).2
    · rw [Option.mem_def, hother j hj] at hd
      have hd' := h.calls j d hd
      rcases hsame with ⟨hfs, hfetches, hnow⟩ | hc
      · rwa [CallSpaced, hfs, hfetches, hnow]
      · exact hd'.of_unlocked (h.inv.unlocked hk hc hj hd)
  · refine hwritten (fun j hj d hd => ?_) fun d hd => ?_
    · exact hno j d (by rwa [Option.mem_def, hother j hj])
    · refine hno k d ?_
      rwa [hcalls, Option.mem_def, Function.update_self]

/-- A call that has no answer in hand goes on, or ends, and the files stay as they are. -/
theorem Quiet.keep {x : Option (Call V)} (h : Quiet J ttl repo s) (hinv : Inv J ttl s')
    (hk : s.calls k = some c) (hcalls : s'.calls = Function.update s.calls k x)
    (hsame : s'.fs = s.fs ∧ s'.fetches = s.fetches ∧ s'.now = s.now) (hc : ¬ c.phase.storing)
    (hx : ∀ d ∈ x, d.query = c.query ∧ CallSpaced J ttl repo s' d) : Quiet J ttl repo s' := by
  obtain ⟨hfs, hfetches, hnow⟩ := hsame
  refine h.advance hinv hk hcalls (.inl ⟨hfs, hfetches, hnow⟩) ?_ ?_ hx ?_
  · rw [hfetches]
    exact h.spaced
  · rw [hfetches, hnow]
    exact h.times
  · intro hothers _ hne
    rw [hfetches] at hne ⊢
    rw [hfs]
    refine h.written (fun j d hd => ?_) hne
    by_cases hj : j = k
    · subst hj
      obtain rfl : c = d := Option.some.inj (hk.symm.trans hd)
      exact hc
    · exact hothers j hj d hd

variable (fs') in
/-- A call that has an answer in hand goes on with it. -/
theorem Quiet.store {phase : Phase} (h : Quiet J ttl repo s)
    (hinv : Inv J ttl ({ s with fs := fs' }.goto k c phase)) (hk : s.calls k = some c)
    (hc : c.phase.locked) (hphase : phase.storing)
    (hx : CallSpaced J ttl repo { s with fs := fs' } { c with phase := phase }) :
    Quiet J ttl repo ({ s with fs := fs' }.goto k c phase) := by
  refine h.advance hinv hk rfl (.inr hc) h.spaced h.times ?_ ?_
  · rintro d ⟨⟩
    exact ⟨rfl, hx⟩
  · intro _ hno
    exact absurd hphase (hno _ rfl)

/-- What holds the lock and has no answer in hand is alone, so that the cache file covers all. -/
theorem Quiet.covered (h : Quiet J ttl repo s) (hk : s.calls k = some c) (hc : c.phase.locked)
    (hstoring : ¬ c.phase.storing) (hne : s.fetches ≠ []) :
    ∃ i, s.fs.ino .cacheFile = some i ∧ Covers J repo s.fetches (s.fs.data i) := by
  refine h.written (fun j d hd => ?_) hne
  by_cases hj : j = k
  · subst hj
    obtain rfl : c = d := Option.some.inj (hk.symm.trans hd)
    exact hstoring
  · intro hd'
    have := h.inv.unlocked hk hc hj hd
    rw [Phase.locked_of_storing hd'] at this
    cases this

/-- What covers all the answers and is not accepted is older than `ttl` seconds. -/
theorem Covers.expired {now : ℕ} {fetches : List Fetch} (hJ : J.Lawful)
    (h : Covers J repo fetches data) (htimes : ∀ f ∈ fetches, f.time ≤ now)
    (hread : readIfValid J ttl now repo data = none) : ∀ f ∈ fetches, f.time + ttl ≤ now := by
  obtain ⟨cached, hjson, hrepo, hcovers⟩ := h
  intro f hf
  have hstamp := hcovers f hf
  have htime := htimes f hf
  by_contra hlt
  have hage : now - cached.fetchedAtEpochSecs < ttl := by omega
  simp [readIfValid, hJ _ _ hjson, hrepo, hage] at hread

theorem Quiet.missed {locked : Bool} (h : Quiet J ttl repo s) (hk : s.calls k = some c)
    (hlocked : c.phase.locked = locked) (hstoring : ¬ c.phase.storing)
    (hexpired : locked → ∀ f ∈ s.fetches, f.time + ttl ≤ s.now) :
    Quiet J ttl repo (s.missed k c locked) := by
  refine h.keep (h.inv.missed hk hlocked) hk rfl ⟨rfl, rfl, rfl⟩ hstoring ?_
  rintro d ⟨⟩
  refine ⟨rfl, ?_⟩
  cases locked
  · trivial
  · exact ⟨rfl, hexpired rfl⟩

theorem Quiet.next (hJ : J.Lawful) (h : Quiet J ttl repo s) (hk : s.calls k = some c)
    (hundisturbed : ∀ releases, c.phase = .stamping releases →
      ∃ json, J.toString ⟨repo, s.now, releases⟩ = .ok json)
    (hstep : s.next J ttl k c = some s') : Quiet J ttl repo s' := by
  have hinv := h.inv.next hJ hk hstep
  have hok := h.calls k c hk
  have hquery := h.query k c hk
  rw [CallSpaced] at hok
  rw [Host.next] at hstep
  cases hphase : c.phase <;> simp only [hphase] at hok hstep hundisturbed
  case opening locked =>
    have hstoring : ¬ c.phase.storing := by rw [hphase]; exact id
    cases hsrc : s.fs.ino .cacheFile with
    | none =>
      rw [hsrc] at hstep
      obtain rfl := Option.some.inj hstep
      refine h.missed hk (by rw [hphase]; rfl) hstoring fun hlocked f hf => ?_
      obtain ⟨i, hi, -⟩ := h.covered hk (by rwa [hphase]) hstoring (List.ne_nil_of_mem hf)
      rw [hsrc] at hi
      cases hi
    | some src =>
      rw [hsrc] at hstep
      obtain rfl := Option.some.inj hstep
      refine h.keep hinv hk rfl ⟨rfl, rfl, rfl⟩ hstoring ?_
      rintro d ⟨⟩
      exact ⟨rfl, fun _ => hsrc⟩
  case reading locked src =>
    have hstoring : ¬ c.phase.storing := by rw [hphase]; exact id
    cases hread : readIfValid J ttl s.now c.query.repo (s.fs.data src) with
    | none =>
      rw [hread] at hstep
      obtain rfl := Option.some.inj hstep
      refine h.missed hk (by rw [hphase]; rfl) hstoring fun hlocked f hf => ?_
      obtain ⟨i, hi, hcovers⟩ :=
        h.covered hk (by rwa [hphase]) hstoring (List.ne_nil_of_mem hf)
      obtain rfl := Option.some.inj ((hok hlocked).symm.trans hi)
      rw [hquery] at hread
      exact hcovers.expired hJ h.times hread f hf
    | some releases =>
      rw [hread] at hstep
      obtain rfl := Option.some.inj hstep
      exact h.keep hinv hk rfl ⟨rfl, rfl, rfl⟩ hstoring (by rintro d ⟨⟩)
  case locking =>
    split_ifs at hstep with hfree
    obtain rfl := Option.some.inj hstep
    refine h.keep hinv hk rfl ⟨rfl, rfl, rfl⟩ (by rw [hphase]; exact id) ?_
    rintro d ⟨⟩
    exact ⟨rfl, trivial⟩
  case fetching => cases hstep
  case stamping releases =>
    obtain ⟨json, hjson⟩ := hundisturbed releases rfl
    rw [hquery, hjson] at hstep
    obtain rfl := Option.some.inj hstep
    refine h.advance hinv hk rfl (.inr (by rw [hphase]; rfl)) h.spaced h.times ?_ ?_
    · rintro d ⟨⟩
      exact ⟨rfl, _, hjson, rfl, h.times⟩
    · intro _ hno
      exact absurd trivial (hno _ rfl)
  case creating releases json =>
    obtain rfl := Option.some.inj hstep
    exact h.store _ hinv hk (by rw [hphase]; rfl) trivial hok
  case writing releases json dst off =>
    split_ifs at hstep with hoff
    obtain rfl := Option.some.inj hstep
    have hinvk := h.inv.calls k c hk
    rw [CallOk, hphase] at hinvk
    obtain ⟨-, -, hino, -, hdata⟩ := hinvk
    refine h.store s.fs hinv hk (by rw [hphase]; rfl) trivial fun dst' hdst' => ?_
    obtain rfl := Option.some.inj (hino.symm.trans hdst')
    change Covers J repo s.fetches (s.fs.data dst)
    rwa [hdata, List.take_of_length_le hoff]
  case removing releases =>
    obtain rfl := Option.some.inj hstep
    refine h.store _ hinv hk (by rw [hphase]; rfl) trivial fun dst hdst => hok dst ?_
    rwa [Files.ino_remove_of_ne (by simp)] at hdst
  case replacing releases =>
    have hinvk := h.inv.calls k c hk
    rw [CallOk, hphase] at hinvk
    obtain ⟨-, dst, hino, -⟩ := hinvk
    rw [hino] at hstep
    obtain rfl := Option.some.inj hstep
    refine h.advance hinv hk rfl (.inr (by rw [hphase]; rfl)) h.spaced h.times (by rintro d ⟨⟩) ?_
    exact fun _ _ _ => ⟨dst, hino, hok dst hino⟩

theorem Quiet.fail (h : Quiet J ttl repo s) (hk : s.calls k = some c) (e : String)
    (hundisturbed : match c.phase with
      | .opening locked | .reading locked _ => locked = false
      | .stamping _ | .creating _ _ | .writing _ _ _ _ | .replacing _ => False
      | .locking | .fetching _ | .removing _ => True) : Quiet J ttl repo (s.fail k c e) := by
  have hinv := h.inv.fail hk e
  have hok := h.calls k c hk
  rw [CallSpaced] at hok
  rw [Host.fail] at hinv ⊢
  cases hphase : c.phase <;> simp only [hphase] at hok hundisturbed hinv ⊢
  case opening | reading =>
    subst hundisturbed
    exact h.missed hk (by rw [hphase]; rfl) (by rw [hphase]; exact id) nofun
  case locking | fetching =>
    exact h.keep hinv hk rfl ⟨rfl, rfl, rfl⟩ (by rw [hphase]; exact id) (by rintro d ⟨⟩)
  case removing => exact h.store s.fs hinv hk (by rw [hphase]; rfl) trivial hok

theorem Quiet.part {n : ℕ} (h : Quiet J ttl repo s) (hk : s.calls k = some c)
    (hstep : s.part k c n = some s') : Quiet J ttl repo s' := by
  have hinv := h.inv.part hk hstep
  have hok := h.calls k c hk
  rw [CallSpaced] at hok
  rw [Host.part] at hstep
  cases hphase : c.phase <;> simp only [hphase] at hok hstep <;> try cases hstep
  exact h.store _ hinv hk (by rw [hphase]; rfl) trivial hok

/-- An answer comes to the one call that holds the lock, after all others have expired. -/
theorem Quiet.answer (h : Quiet J ttl repo s) (hk : s.calls k = some c)
    (hstep : s.answer k c releases = some s') : Quiet J ttl repo s' := by
  have hinv := h.inv.answer hk hstep
  have hok := h.calls k c hk
  rw [CallSpaced] at hok
  rw [Host.answer] at hstep
  cases hphase : c.phase <;> simp only [hphase] at hok hstep <;> try cases hstep
  obtain ⟨rfl, hexpired⟩ := hok
  refine h.advance hinv hk rfl (.inr (by rw [hphase]; rfl)) (.cons hexpired h.spaced) ?_ ?_ ?_
  · intro f hf
    rcases List.mem_cons.1 hf with rfl | hf
    · exact le_rfl
    · exact h.times f hf
  · rintro d ⟨⟩
    exact ⟨rfl, trivial⟩
  · intro _ hno
    exact absurd trivial (hno _ rfl)

theorem Quiet.step {a : Action V} (hJ : J.Lawful) (h : Quiet J ttl repo s)
    (hundisturbed : Undisturbed J repo s a) (hstep : s.step J ttl a = some s') :
    Quiet J ttl repo s' := by
  have hinv := h.inv.step hJ hstep
  cases a with
  | begin k query =>
    obtain ⟨hrepo, hcache⟩ := hundisturbed
    simp only [Host.step, hcache, if_true] at hstep
    split at hstep
    · rename_i hfree
      obtain rfl := Option.some.inj hstep
      have hcalls : ∀ j d, Function.update s.calls k (some ⟨query, s.now, .opening false⟩) j =
          some d → d = ⟨query, s.now, .opening false⟩ ∨ s.calls j = some d := by
        intro j d hd
        by_cases hj : j = k
        · subst hj
          rw [Function.update_self] at hd
          exact .inl (Option.some.inj hd).symm
        · exact .inr (by rwa [Function.update_of_ne hj] at hd)
      refine ⟨hinv, h.spaced, h.times, fun j d hd => ?_, fun j d hd => ?_, fun hno => ?_⟩
      · rcases hcalls j d hd with rfl | hd
        · exact hrepo
        · exact h.query j d hd
      · rcases hcalls j d hd with rfl | hd
        · trivial
        · exact h.calls j d hd
      · refine h.written fun j d hd => hno j d ?_
        have hj : j ≠ k := by
          rintro rfl
          rw [Option.mem_def, hfree] at hd
          cases hd
        exact (Function.update_of_ne hj _ _).trans hd
    · cases hstep
  | next k =>
    obtain ⟨c, hk, hstep⟩ := Option.bind_eq_some_iff.1 hstep
    exact h.next hJ hk (hundisturbed c hk) hstep
  | fail k e =>
    obtain ⟨c, hk, rfl⟩ := Option.map_eq_some_iff.1 hstep
    exact h.fail hk e (hundisturbed c hk)
  | part k n =>
    obtain ⟨c, hk, hstep⟩ := Option.bind_eq_some_iff.1 hstep
    exact h.part hk hstep
  | answer k releases =>
    obtain ⟨c, hk, hstep⟩ := Option.bind_eq_some_iff.1 hstep
    exact h.answer hk hstep
  | crash k =>
    obtain ⟨c, hk, rfl⟩ := Option.map_eq_some_iff.1 hstep
    exact h.keep hinv hk rfl ⟨rfl, rfl, rfl⟩ (hundisturbed c hk) (by rintro d ⟨⟩)
  | tick secs =>
    obtain rfl := Option.some.inj hstep
    refine ⟨hinv, h.spaced, fun f hf => (h.times f hf).trans (Nat.le_add_right _ _), h.query,
      fun j d hd => ?_, h.written⟩
    have hok := h.calls j d hd
    obtain ⟨query, began, phase⟩ := d
    cases phase <;> try exact hok
    exact ⟨hok.1, fun f hf => (hok.2 f hf).trans (Nat.le_add_right _ _)⟩

theorem quiet_initial (now : ℕ) : Quiet J ttl repo (.initial now : Host V) :=
  ⟨inv_initial now, .nil, nofun, nofun, nofun, fun _ hne => absurd rfl hne⟩

/-- **The API is asked once in `ttl` seconds**, by however many services, in a run that is not
    disturbed. -/
theorem fetches_spaced (hJ : J.Lawful) {now : ℕ} {as : List (Action V)}
    (h : Trace (Host.step J ttl) (Undisturbed J repo) (.initial now) as s) :
    Spaced ttl s.fetches :=
  (h.invariant (fun _ _ _ hundisturbed h hstep => h.step hJ hundisturbed hstep)
    (quiet_initial now)).spaced

/-! ## Two services -/

def exampleReleases : CachedReleases := ⟨"ant-node", 5, []⟩

def exampleText : Bytes :=
  "\x7b\"repo\":\"ant-node\",\"fetched_at_epoch_secs\":5,\"releases\":[]\x7d".toList.map
    fun c => UInt8.ofNat c.toNat

/-- `serde_json`, so far as the example goes. -/
def exampleJson : Json where
  toString cached := if cached = exampleReleases then .ok exampleText else .error "not modelled"
  fromStr data := if data = exampleText then some exampleReleases else none

theorem lawful_exampleJson : exampleJson.Lawful := by
  intro cached json h
  simp only [exampleJson] at h ⊢
  split_ifs at h with hcached
  obtain rfl := Except.ok.inj h
  rw [if_pos rfl, hcached]

def exampleQuery : Query ℕ := ⟨"ant-node", 1, .stable, true⟩

/-- The first service asks the API at 5 and writes the answer down. -/
def firstFetch : List (Action ℕ) :=
  [.begin 0 exampleQuery, .next 0, .next 0, .next 0, .answer 0 [], .next 0, .next 0, .part 0 100,
    .next 0, .next 0, .next 0]

def findsLater : List (Action ℕ) :=
  firstFetch ++ [.tick 2, .begin 1 exampleQuery, .next 1, .next 1]

def fetchesAgain : List (Action ℕ) :=
  firstFetch ++ [.tick 10, .begin 1 exampleQuery, .next 1, .next 1, .next 1, .next 1, .next 1,
    .answer 1 []]

/-- The second one finds it 2 seconds later. -/
theorem found_genuine_second : ∃ s : Host ℕ,
    s.found.map (fun r => (r.service, r.cached)) = [(1, true), (0, false)] ∧
      ∀ r ∈ s.found, FoundOk 10 s r := by
  have hrun : (findsLater.foldlM (Host.step exampleJson 10) (.initial 5 : Host ℕ)).map
        (fun s => s.found.map fun r => (r.service, r.cached)) = some [(1, true), (0, false)] := by
    decide
  obtain ⟨s, hs, hfound⟩ := Option.map_eq_some_iff.1 hrun
  exact ⟨s, hfound, found_genuine lawful_exampleJson (runs_iff.2 hs)⟩

/-- Whether a step of a run without failures is undisturbed. -/
def undisturbedCheck (J : Json) (repo : String) (s : Host V) : Action V → Bool
  | .begin _ query => query.repo = repo && query.cache
  | .next k => (s.calls k).all fun c =>
    match c.phase with
    | .stamping releases => (J.toString ⟨repo, s.now, releases⟩).isOk
    | _ => true
  | .fail _ _ | .crash _ => false
  | .part _ _ | .answer _ _ | .tick _ => true

theorem undisturbed_of_check {a : Action V} (h : undisturbedCheck J repo s a = true) :
    Undisturbed J repo s a := by
  cases a with
  | begin k query => simpa [undisturbedCheck, Undisturbed] using h
  | next k =>
    intro c hc releases hphase
    rw [Option.mem_def] at hc
    simp only [undisturbedCheck, hc, Option.all_some, hphase] at h
    cases hjson : J.toString ⟨repo, s.now, releases⟩ with
    | error e =>
      rw [hjson] at h
      cases h
    | ok json => exact ⟨json, rfl⟩
  | fail _ _ | crash _ => cases h
  | part _ _ | answer _ _ | tick _ => trivial

/-- The second one comes 10 seconds later, and asks the API again. -/
theorem fetches_spaced_two : ∃ s : Host ℕ,
    s.fetches.map Fetch.time = [15, 5] ∧ Spaced 10 s.fetches := by
  have hrun : (fetchesAgain.foldlM
      (guarded (Host.step exampleJson 10) fun s a => undisturbedCheck exampleJson "ant-node" s a)
      (.initial 5 : Host ℕ)).map (fun s => s.fetches.map Fetch.time) = some [15, 5] := by
    decide
  obtain ⟨s, hs, hfetches⟩ := Option.map_eq_some_iff.1 hrun
  exact ⟨s, hfetches, fetches_spaced lawful_exampleJson
    ((trace_iff.2 hs).mono fun _ _ => undisturbed_of_check)⟩

end Autonomi.Upgrade.ReleaseCache
