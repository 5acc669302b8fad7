/-
  What the services that upgrade one binary do to it.
-/
import Autonomi.Upgrade.Apply

namespace Autonomi.Upgrade

open Lib

variable {V H : Type}

/-! ## The files -/

/-- It comes from an archive whose signature verified. -/
def Verified (T : Tools V H) (bin : Bytes) : Prop :=
  ∃ archive signature, T.verifyFromFile archive signature = true ∧ T.extractBinary archive = .ok bin

/-- No name by which a file is opened for writing refers to `i`. -/
def Frozen (fs : Files (FileName V)) (i : ℕ) : Prop :=
  i < fs.next ∧ fs.ino .backup ≠ some i ∧ ∀ v, fs.ino (.tmpBin v) ≠ some i

/-- What a call of one service leaves to the others; it may have used the temporary files of the
    versions in `touched`. -/
structure Frame (touched : V → Prop) (fs fs' : Files (FileName V)) : Prop where
  frozen : ∀ i, Frozen fs i → Frozen fs' i ∧ fs'.data i = fs.data i
  tmpBin : ∀ v, ¬ touched v → ∀ i, fs.ino (.tmpBin v) = some i →
    fs'.ino (.tmpBin v) = some i ∧ fs'.data i = fs.data i
  backup : ∀ i, fs.ino .backup = some i → fs'.ino .backup = some i

variable {T : Tools V H} {initial : Bytes} {fs fs' : Files (FileName V)} {v : V} {i n off : ℕ}
  {bin : Bytes} {touched : V → Prop}

theorem frozen_of_ino {name : FileName V} (h : fs.ino name = some i) (hbackup : name ≠ .backup)
    (htmp : ∀ v, name ≠ .tmpBin v) : Frozen fs i :=
  ⟨fs.bound _ _ h, fun hb => hbackup (fs.inj _ _ i h hb), fun v ht => htmp v (fs.inj _ _ i h ht)⟩

theorem Frame.refl : Frame touched fs fs :=
  ⟨fun _ h => ⟨h, rfl⟩, fun _ _ _ h => ⟨h, rfl⟩, fun _ h => h⟩

theorem Frame.write {name : FileName V} {d : Bytes} {j : ℕ} (hj : fs.ino name = some j)
    (hname : name = .backup ∨ ∃ v, name = .tmpBin v ∧ touched v) :
    Frame touched fs (fs.write j off d) := by
  refine ⟨?_, ?_, fun i hi => hi⟩
  · rintro i hi
    refine ⟨hi, Files.data_write_of_ne ?_⟩
    rintro rfl
    obtain rfl | ⟨v, rfl, -⟩ := hname
    exacts [hi.2.1 hj, hi.2.2 v hj]
  · intro v hv i hi
    refine ⟨hi, Files.data_write_of_ne ?_⟩
    rintro rfl
    obtain rfl | ⟨w, rfl, hw⟩ := hname
    · cases fs.inj _ _ i hi hj
    · cases fs.inj _ _ i hi hj
      exact hv hw

section

variable [DecidableEq V]

theorem Frame.create {name : FileName V}
    (hname : name = .backup ∨ ∃ v, name = .tmpBin v ∧ touched v) :
    Frame touched fs (fs.create name).1 := by
  have hopen : ∀ i, Frozen fs i → fs.ino name ≠ some i := by
    rintro i ⟨-, hb, ht⟩
    obtain rfl | ⟨v, rfl, -⟩ := hname
    exacts [hb, ht v]
  have hino : ∀ i m, Frozen fs i → fs.ino m ≠ some i → (fs.create name).1.ino m ≠ some i := by
    intro i m hi hm
    by_cases hmn : m = name
    · subst hmn
      exact Files.create_ne (hopen i hi) hi.1
    · rwa [Files.ino_create_of_ne hmn]
  refine ⟨fun i hi => ⟨⟨hi.1.trans_le Files.next_le_create, hino i _ hi hi.2.1,
    fun v => hino i _ hi (hi.2.2 v)⟩, Files.data_create_of_ne (hopen i hi) hi.1⟩, ?_, ?_⟩
  · intro v hv i hi
    have hne : FileName.tmpBin v ≠ name := by
      rintro rfl
      obtain h | ⟨w, h, hw⟩ := hname
      · cases h
      · cases h
        exact hv hw
    refine ⟨by rwa [Files.ino_create_of_ne hne], Files.data_create_of_ne ?_ (fs.bound _ _ hi)⟩
    exact fun h => hne (fs.inj _ _ i hi h)
  · intro i hi
    by_cases hne : FileName.backup (V := V) = name
    · subst hne
      exact Files.ino_create_of_some hi
    · rwa [Files.ino_create_of_ne hne]

theorem Frame.remove : Frame touched fs (fs.remove (.cached v)) := by
  have hne : ∀ m : FileName V, m ≠ .cached v → (fs.remove (.cached v)).ino m = fs.ino m :=
    fun m hm => Files.ino_remove_of_ne hm
  refine ⟨fun i hi => ⟨⟨hi.1, ?_, ?_⟩, rfl⟩, ?_, ?_⟩
  · rw [hne _ (by simp)]; exact hi.2.1
  · intro w; rw [hne _ (by simp)]; exact hi.2.2 w
  · intro w _ i hi; exact ⟨by rwa [hne _ (by simp)], rfl⟩
  · intro i hi; rwa [hne _ (by simp)]

theorem Frame.rename (hv : touched v) : Frame touched fs (fs.rename (.tmpBin v) (.cached v)) := by
  refine ⟨fun i hi => ⟨⟨hi.1, ?_, ?_⟩, rfl⟩, ?_, ?_⟩
  · simpa [Files.rename] using hi.2.1
  · intro w
    simp only [Files.rename]
    split_ifs <;> first | exact hi.2.2 w | simp_all
  · intro w hw i hi
    have hne : w ≠ v := by rintro rfl; exact hw hv
    exact ⟨by simpa [Files.rename, hne] using hi, rfl⟩
  · intro i hi; simpa [Files.rename] using hi

theorem Frame.place : Frame touched fs (fs.place .currentBinary bin) := by
  have hne : ∀ m : FileName V, m ≠ .currentBinary →
      (fs.place .currentBinary bin).ino m = fs.ino m := fun m hm => Files.ino_place_of_ne hm
  refine ⟨fun i hi => ⟨⟨Nat.lt_succ_of_lt hi.1, ?_, ?_⟩, Files.data_place_of_lt hi.1⟩, ?_, ?_⟩
  · rw [hne _ (by simp)]; exact hi.2.1
  · intro w; rw [hne _ (by simp)]; exact hi.2.2 w
  · intro w _ i hi
    exact ⟨by rwa [hne _ (by simp)], Files.data_place_of_lt (fs.bound _ _ hi)⟩
  · intro i hi; rwa [hne _ (by simp)]

end

/-! ## The calls -/

/-- The store of a call has its temporary file open, or is about to rename it. -/
def Phase.stores : Phase H → Prop
  | .storing _ _ _ _ | .storeRemove _ _ | .storeRename _ _ => True
  | _ => False

variable {T : Tools V H} {initial : Bytes} {fs fs' : Files (FileName V)} {s s₁ s' : Host V H}
  {k : ℕ} {c : Call V H} {touched : V → Prop} {bin : Bytes} {phase : Phase H}

/-- The store of no other call has the temporary file of `v`. -/
def Alone (s : Host V H) (k : ℕ) (v : V) : Prop :=
  ∀ j ≠ k, ∀ d ∈ s.calls j, d.phase.stores → d.info.version ≠ v

/-- `s₁` differs from `s` in the lock and the metadata only. -/
structure Same (s s₁ : Host V H) : Prop where
  fs : s₁.fs = s.fs
  calls : s₁.calls = s.calls
  results : s₁.results = s.results
  replaced : s₁.replaced = s.replaced

theorem Same.refl : Same s s := ⟨rfl, rfl, rfl, rfl⟩

theorem Same.unlock (h : Same s s₁) (locked : Bool) : Same s (s₁.unlock locked) := by
  cases locked
  · exact h
  · exact ⟨h.fs, h.calls, h.results, h.replaced⟩

/-! What a call does is nothing to the others. -/

section Frame

variable {j : ℕ} (hj : j ≠ k) (s : Host V H)
include hj

@[simp] theorem calls_goto (phase : Phase H) : (s.goto k c phase).calls j = s.calls j :=
  Function.update_of_ne hj _ _

@[simp] theorem calls_finish (result : Except String (UpgradeResult V)) :
    (s.finish k result).calls j = s.calls j :=
  Function.update_of_ne hj _ _

@[simp] theorem calls_missed (locked : Bool) : (s.missed k c locked).calls j = s.calls j :=
  calls_goto hj ..

@[simp] theorem calls_resolved (locked : Bool) (new : Bytes) :
    (s.resolved k c locked new).calls j = s.calls j := by
  rw [Host.resolved, calls_goto hj, (Same.refl.unlock locked).calls]

@[simp] theorem calls_unresolved (locked : Bool) (e : String) :
    (s.unresolved k locked e).calls j = s.calls j := by
  rw [Host.unresolved, calls_finish hj, (Same.refl.unlock locked).calls]

@[simp] theorem calls_copyOutFailed (locked : Bool) (e : String) :
    (s.copyOutFailed k c locked e).calls j = s.calls j := by
  cases locked
  · exact calls_goto hj ..
  · exact calls_unresolved hj ..

theorem calls_fail (e : String) : (s.fail k c e).calls j = s.calls j := by
  rw [Host.fail]
  split <;> simp [hj]

end Frame

theorem verifyExtract_eq_ok {archive signature : Bytes}
    (h : T.verifyExtract archive signature = .ok bin) : Verified T bin := by
  rw [Tools.verifyExtract] at h
  split_ifs at h with hv
  exact ⟨archive, signature, hv, h⟩

variable [LinearOrder V]

/-- Verified, and of the version `v` at least. -/
def VerifiedFor (T : Tools V H) (v : V) (bin : Bytes) : Prop :=
  Verified T bin ∧ v ≤ T.version bin

/-- The files at the names from which the others are copied. -/
structure Whole (T : Tools V H) (initial : Bytes) (fs : Files (FileName V)) : Prop where
  currentBinary : ∃ i, fs.ino .currentBinary = some i ∧
    (fs.data i = initial ∨ Verified T (fs.data i))
  cached : ∀ v i, fs.ino (.cached v) = some i → VerifiedFor T v (fs.data i)

/-- What names the binary and the cached ones as before leaves them whole. -/
theorem Whole.frame (h : Whole T initial fs) (hframe : Frame touched fs fs')
    (hcurrent : fs'.ino .currentBinary = fs.ino .currentBinary)
    (hcached : ∀ v i, fs'.ino (.cached v) = some i → fs.ino (.cached v) = some i) :
    Whole T initial fs' := by
  obtain ⟨i, hi, hgood⟩ := h.currentBinary
  constructor
  · refine ⟨i, hcurrent ▸ hi, ?_⟩
    rwa [(hframe.frozen i (frozen_of_ino hi (by simp) (by simp))).2]
  · intro v i hi
    have hi := hcached v i hi
    rw [(hframe.frozen i (frozen_of_ino hi (by simp) (by simp))).2]
    exact h.cached v i hi

/-- What a call has at hand is verified, and what it has written so far is there. -/
def CallOk (T : Tools V H) (fs : Files (FileName V)) (c : Call V H) : Prop :=
  match c.phase with
  | .start | .lookup _ | .hashing _ _ | .copyOut _ | .locking | .download _ _ | .rollback _
  | .restart => True
  | .copyingOut _ src dest =>
    Frozen fs src ∧ VerifiedFor T c.info.version (fs.data src) ∧ ∃ n, dest = (fs.data src).take n
  | .storeCopy _ bin | .metaWrite _ bin | .metaRemove _ bin | .metaRename _ bin | .check bin
  | .backup bin | .replace bin => VerifiedFor T c.info.version bin
  | .storing _ bin dst off =>
    VerifiedFor T c.info.version bin ∧ fs.ino (.tmpBin c.info.version) = some dst ∧
      off ≤ bin.length ∧ fs.data dst = bin.take off
  | .storeRemove _ bin | .storeRename _ bin =>
    VerifiedFor T c.info.version bin ∧
      ∃ dst, fs.ino (.tmpBin c.info.version) = some dst ∧ fs.data dst = bin
  | .backingUp bin _ dst _ => VerifiedFor T c.info.version bin ∧ fs.ino .backup = some dst
  | .rollingBack _ _ _ _ => False

/-- What holds of the host. -/
structure Inv (T : Tools V H) (initial : Bytes) (s : Host V H) : Prop where
  whole : Whole T initial s.fs
  calls : ∀ k, ∀ c ∈ s.calls k, CallOk T s.fs c
  apart : ∀ j k, j ≠ k → ∀ c ∈ s.calls j, ∀ d ∈ s.calls k, c.phase.stores → d.phase.stores →
    c.info.version ≠ d.info.version
  found : ∀ k, ∀ c ∈ s.calls k, c.phase ≠ .restart → s.binary = c.found ∨
    ∃ j bin, j ≠ k ∧ (j, bin) ∈ s.replaced ∧ s.binary = some bin

/-- What another call does leaves this one as it is. -/
theorem CallOk.frame (h : CallOk T fs c) (hframe : Frame touched fs fs')
    (htouched : c.phase.stores → ¬ touched c.info.version) : CallOk T fs' c := by
  unfold CallOk at h ⊢
  split at h <;> first | trivial | exact h | skip
  · obtain ⟨hsrc, hver, hdest⟩ := h
    obtain ⟨hsrc', hdata⟩ := hframe.frozen _ hsrc
    rw [hdata]
    exact ⟨hsrc', hver, hdest⟩
  · rename_i hphase
    obtain ⟨hver, hino, hoff, hdata⟩ := h
    obtain ⟨hino', hdata'⟩ := hframe.tmpBin _ (htouched (by rw [hphase]; trivial)) _ hino
    exact ⟨hver, hino', hoff, hdata'.trans hdata⟩
  · rename_i hphase
    obtain ⟨hver, dst, hino, hdata⟩ := h
    obtain ⟨hino', hdata'⟩ := hframe.tmpBin _ (htouched (by rw [hphase]; trivial)) _ hino
    exact ⟨hver, dst, hino', hdata'.trans hdata⟩
  · rename_i hphase
    obtain ⟨hver, dst, hino, hdata⟩ := h
    obtain ⟨hino', hdata'⟩ := hframe.tmpBin _ (htouched (by rw [hphase]; trivial)) _ hino
    exact ⟨hver, dst, hino', hdata'.trans hdata⟩
  · exact ⟨h.1, hframe.backup _ h.2⟩

theorem Inv.alone (h : Inv T initial s) (hk : s.calls k = some c) (hc : c.phase.stores) :
    Alone s k c.info.version :=
  fun j hj d hd hstores => h.apart j k hj d hd c hk hstores hc

theorem Whole.read_eq (h : Whole T initial fs) (hframe : Frame touched fs fs')
    (hcurrent : fs'.ino .currentBinary = fs.ino .currentBinary) :
    fs'.read .currentBinary = fs.read .currentBinary := by
  obtain ⟨i, hi, -⟩ := h.currentBinary
  rw [Files.read, Files.read, hcurrent, hi, Option.map_some, Option.map_some,
    (hframe.frozen i (frozen_of_ino hi (by simp) (by simp))).2]

theorem Whole.exists_binary (h : Whole T initial s.fs) :
    ∃ bin ∈ s.binary, bin = initial ∨ Verified T bin := by
  obtain ⟨i, hi, hgood⟩ := h.currentBinary
  exact ⟨s.fs.data i, by simp [Host.binary, Files.read, hi], hgood⟩

theorem inv_initial : Inv T initial (.initial initial) where
  whole := ⟨⟨0, rfl, Or.inl rfl⟩, by simp [Host.initial]⟩
  calls := by simp [Host.initial]
  apart := by simp [Host.initial]
  found := by simp [Host.initial]

/-! ## What the services keep, and when -/

/-- The binary is not downgraded, is whole and verified, and a call that is rolled back leaves it as
    it found it or as another service replaced it. -/
def SoundStep (T : Tools V H) (initial : Bytes) (s s' : Host V H) : Prop :=
  (∀ old ∈ s.binary, ∀ new ∈ s'.binary, T.version old ≤ T.version new) ∧
  (∃ bin ∈ s'.binary, bin = initial ∨ Verified T bin) ∧
  ∀ k reason, s'.results = (k, .ok (.rolledBack reason)) :: s.results →
    ∃ c ∈ s.calls k, s'.binary = c.found ∨
      ∃ j bin, j ≠ k ∧ (j, bin) ∈ s.replaced ∧ s'.binary = some bin

def SoundAt [DecidableEq H] (T : Tools V H) (initial : Bytes) (s : Host V H) (a : Action V) :
    Prop :=
  ∀ s', s.step T a = some s' → SoundStep T initial s s'

/-- A release contains the version that it is the release of, or a later one, no store opens the
    temporary file of another, the binary that is replaced is not newer, and no backup is copied over
    it. -/
def Careful (T : Tools V H) (s : Host V H) : Action V → Prop
  | .download k archive signature =>
    ∀ c ∈ s.calls k, ∀ bin, T.verifyExtract archive signature = .ok bin →
      c.info.version ≤ T.version bin
  | .next k =>
    ∀ c ∈ s.calls k,
      match c.phase with
      | .storeCopy _ _ => ∀ j ≠ k, ∀ d ∈ s.calls j, d.phase.stores → d.info.version ≠ c.info.version
      | .replace _ => ∀ disk ∈ s.binary, T.version disk ≤ c.info.version
      | .rollback _ => s.fs.ino .backup = none
      | _ => True
  | .begin _ _ _ _ | .fail _ _ | .part _ _ => True

/-! ## The invariant -/

/-- **A step of one call** that leaves the binary as it is. -/
theorem Inv.advance {x : Option (Call V H)} (h : Inv T initial s) (hk : s.calls k = some c)
    (hcalls : s'.calls = Function.update s.calls k x) (hreplaced : s'.replaced = s.replaced)
    (hframe : Frame touched s.fs s'.fs) (htouched : ∀ v, touched v → Alone s k v)
    (hwhole : Whole T initial s'.fs) (hcurrent : s'.fs.ino .currentBinary = s.fs.ino .currentBinary)
    (hx : ∀ d ∈ x, CallOk T s'.fs d ∧ d.found = c.found ∧ d.info = c.info ∧
      (d.phase.stores → Alone s k c.info.version) ∧ c.phase ≠ .restart)
    (hresults : ∀ j reason, s'.results = (j, .ok (.rolledBack reason)) :: s.results →
      j = k ∧ c.phase ≠ .restart) :
    Inv T initial s' ∧ SoundStep T initial s s' := by
  have hbinary : s'.binary = s.binary := h.whole.read_eq hframe hcurrent
  have hself : ∀ d, s'.calls k = some d → d ∈ x := by
    intro d hd
    rwa [hcalls, Function.update_self] at hd
  have hother : ∀ j ≠ k, s'.calls j = s.calls j := by
    intro j hj
    rw [hcalls, Function.update_of_ne hj]
  refine ⟨⟨hwhole, ?_, ?_, ?_⟩, ?_, ?_, ?_⟩
  · intro j d hd
    by_cases hj : j = k
    · subst hj
      exact (hx d (hself d hd)).1
    · rw [hother j hj] at hd
      exact (h.calls j d hd).frame hframe fun hst ht => htouched _ ht j hj d hd hst rfl
  · intro j i hji d hd e he hdst hest
    by_cases hj : j = k
    · subst hj
      obtain ⟨-, -, hinfo, halone, -⟩ := hx d (hself d hd)
      rw [hother i hji.symm] at he
      rw [hinfo]
      exact (halone hdst i hji.symm e he hest).symm
    rw [hother j hj] at hd
    by_cases hi : i = k
    · subst hi
      obtain ⟨-, -, hinfo, halone, -⟩ := hx e (hself e he)
      rw [hinfo]
      exact halone hest j hji d hd hdst
    · rw [hother i hi] at he
      exact h.apart j i hji d hd e he hdst hest
  · intro j d hd hne
    rw [hbinary, hreplaced]
    by_cases hj : j = k
    · subst hj
      obtain ⟨-, hfound, -, -, hrestart⟩ := hx d (hself d hd)
      rw [hfound]
      exact h.found j c hk hrestart
    · rw [hother j hj] at hd
      exact h.found j d hd hne
  · intro old hold new hnew
    rw [hbinary] at hnew
    rw [Option.mem_unique hold hnew]
  · exact hwhole.exists_binary
  · intro j reason hres
    obtain ⟨rfl, hrestart⟩ := hresults j reason hres
    rw [hbinary]
    exact ⟨c, hk, h.found j c hk hrestart⟩

theorem Inv.goto (h : Inv T initial s) (hk : s.calls k = some c) (hsame : Same s s₁)
    (hrestart : c.phase ≠ .restart) (hok : CallOk T s.fs { c with phase := phase })
    (hstores : phase.stores → c.phase.stores) :
    Inv T initial (s₁.goto k c phase) ∧ SoundStep T initial s (s₁.goto k c phase) := by
  have hfs : (s₁.goto k c phase).fs = s.fs := hsame.fs
  have hframe : Frame (fun _ => False) s.fs (s₁.goto k c phase).fs := hfs ▸ Frame.refl
  have hcalls : (s₁.goto k c phase).calls =
      Function.update s.calls k (some { c with phase := phase }) := by rw [Host.goto, hsame.calls]
  refine h.advance hk hcalls hsame.replaced hframe (by simp) (hfs ▸ h.whole) (by rw [hfs]) ?_ ?_
  · rintro d ⟨⟩
    exact ⟨hfs ▸ hok, rfl, rfl, fun hst => h.alone hk (hstores hst), hrestart⟩
  · intro j reason hres
    rw [Host.goto, hsame.results] at hres
    simp at hres

theorem Inv.finish {result : Except String (UpgradeResult V)} (h : Inv T initial s)
    (hk : s.calls k = some c) (hsame : Same s s₁)
    (hrestart : ∀ reason, result = .ok (.rolledBack reason) → c.phase ≠ .restart) :
    Inv T initial (s₁.finish k result) ∧ SoundStep T initial s (s₁.finish k result) := by
  have hfs : (s₁.finish k result).fs = s.fs := hsame.fs
  have hframe : Frame (fun _ => False) s.fs (s₁.finish k result).fs := hfs ▸ Frame.refl
  have hcalls : (s₁.finish k result).calls = Function.update s.calls k none := by
    rw [Host.finish, hsame.calls]
  refine h.advance hk hcalls hsame.replaced hframe (by simp) (hfs ▸ h.whole) (by rw [hfs])
    (by simp) ?_
  intro j reason hres
  rw [Host.finish, hsame.results] at hres
  simp only [List.cons.injEq, Prod.mk.injEq, and_true] at hres
  exact ⟨hres.1.symm, hrestart reason hres.2⟩

theorem Inv.resolved (h : Inv T initial s) (hk : s.calls k = some c) (hsame : Same s s₁)
    (hrestart : c.phase ≠ .restart) (locked : Bool) (hbin : VerifiedFor T c.info.version bin) :
    Inv T initial (s₁.resolved k c locked bin) ∧
      SoundStep T initial s (s₁.resolved k c locked bin) :=
  h.goto hk (hsame.unlock locked) hrestart hbin False.elim

theorem Inv.unresolved (h : Inv T initial s) (hk : s.calls k = some c)
    (hrestart : c.phase ≠ .restart) (locked : Bool) (e : String) :
    Inv T initial (s.unresolved k locked e) ∧ SoundStep T initial s (s.unresolved k locked e) :=
  h.finish hk (Same.refl.unlock locked) fun _ _ => hrestart

theorem Inv.missed (h : Inv T initial s) (hk : s.calls k = some c)
    (hrestart : c.phase ≠ .restart) (locked : Bool) :
    Inv T initial (s.missed k c locked) ∧ SoundStep T initial s (s.missed k c locked) := by
  cases locked <;> exact h.goto hk .refl hrestart trivial False.elim

theorem Inv.copyOutFailed (h : Inv T initial s) (hk : s.calls k = some c)
    (hrestart : c.phase ≠ .restart) (locked : Bool) (e : String) :
    Inv T initial (s.copyOutFailed k c locked e) ∧
      SoundStep T initial s (s.copyOutFailed k c locked e) := by
  cases locked
  · exact h.goto hk .refl hrestart trivial False.elim
  · exact h.unresolved hk hrestart true e

/-- A step that changes files other than the binary. -/
theorem Inv.gotoWith (h : Inv T initial s) (hk : s.calls k = some c) (hrestart : c.phase ≠ .restart)
    (hframe : Frame touched s.fs fs') (htouched : ∀ v, touched v → Alone s k v)
    (hwhole : Whole T initial fs') (hcurrent : fs'.ino .currentBinary = s.fs.ino .currentBinary)
    (hok : CallOk T fs' { c with phase := phase })
    (hstores : phase.stores → Alone s k c.info.version) :
    Inv T initial ({ s with fs := fs' }.goto k c phase) ∧
      SoundStep T initial s ({ s with fs := fs' }.goto k c phase) := by
  refine h.advance hk rfl rfl hframe htouched hwhole hcurrent ?_ ?_
  · rintro d ⟨⟩
    exact ⟨hok, rfl, rfl, hstores, hrestart⟩
  · intro j reason hres
    simp [Host.goto] at hres

/-! ## The steps -/

/-- A call whose operation fails leaves the files as they are. -/
theorem Inv.fail (h : Inv T initial s) (hk : s.calls k = some c) (e : String) :
    Inv T initial (s.fail k c e) ∧ SoundStep T initial s (s.fail k c e) := by
  have hok := h.calls k c hk
  rcases hphase : c.phase with _ | locked | ⟨locked, sha256⟩ | locked | ⟨locked, src, dest⟩ | _ |
    ⟨locked, store⟩ | ⟨locked, bin⟩ | ⟨locked, bin, dst, off⟩ | ⟨locked, bin⟩ | ⟨locked, bin⟩ |
    ⟨locked, bin⟩ | ⟨locked, bin⟩ | ⟨locked, bin⟩ | new | new | ⟨new, src, dst, off⟩ | new | e' |
    ⟨e', src, dst, off⟩ | _ <;>
    simp only [CallOk, hphase] at hok <;> simp only [Host.fail, hphase]
  case start | rollback | restart =>
    exact h.finish hk .refl (by rintro _ ⟨⟩)
  case lookup | hashing => exact h.missed hk (by simp [hphase]) locked
  case copyOut | copyingOut => exact h.copyOutFailed hk (by simp [hphase]) locked e
  case locking => exact h.unresolved hk (by simp [hphase]) false e
  case download => exact h.unresolved hk (by simp [hphase]) locked e
  case storeCopy | metaWrite | metaRename => exact h.resolved hk .refl (by simp [hphase]) locked hok
  case storing | storeRename => exact h.resolved hk .refl (by simp [hphase]) locked hok.1
  case storeRemove =>
    exact h.goto hk .refl (by simp [hphase]) hok (by simp [hphase, Phase.stores])
  case metaRemove => exact h.goto hk .refl (by simp [hphase]) hok False.elim
  case check => exact h.goto hk .refl (by simp [hphase]) hok False.elim
  case backup | backingUp => exact h.finish hk .refl (by simp [hphase])
  case replace => exact h.goto hk .refl (by simp [hphase]) trivial False.elim

/-- A part of a copy lands in the temp directory, the temporary file of the store, or the backup. -/
theorem Inv.part {n : ℕ} (h : Inv T initial s) (hk : s.calls k = some c)
    (hstep : s.part k c n = some s') : Inv T initial s' ∧ SoundStep T initial s s' := by
  have hok := h.calls k c hk
  unfold Host.part at hstep
  split at hstep
  · rename_i locked src dest hphase
    obtain rfl := Option.some.inj hstep
    simp only [CallOk, hphase] at hok
    obtain ⟨hsrc, hver, m, hdest⟩ := hok
    refine h.goto hk .refl (by simp [hphase]) ⟨hsrc, hver, dest.length + n, ?_⟩ False.elim
    have hlen : dest = (s.fs.data src).take dest.length := by
      conv_lhs => rw [hdest, List.take_eq_take_min]
      rw [hdest, List.length_take]
    rw [List.take_add, ← hlen]
  · rename_i locked bin dst off hphase
    obtain rfl := Option.some.inj hstep
    simp only [CallOk, hphase] at hok
    obtain ⟨hver, hino, hoff, hdata⟩ := hok
    have halone := h.alone hk (by rw [hphase]; trivial)
    have hframe : Frame (· = c.info.version) s.fs (s.fs.write dst off ((bin.drop off).take n)) :=
      .write hino (Or.inr ⟨_, rfl, rfl⟩)
    refine h.gotoWith hk (by simp [hphase]) hframe (by rintro v rfl; exact halone)
      (h.whole.frame hframe rfl fun _ _ hi => hi) rfl ⟨hver, hino, ?_, ?_⟩ fun _ => halone
    · simp only [List.length_take, List.length_drop]
      omega
    · rw [Files.data_write_self, hdata, writeAt_take bin hoff]
  · rename_i new src dst off hphase
    obtain rfl := Option.some.inj hstep
    simp only [CallOk, hphase] at hok
    have hframe : Frame (fun _ => False) s.fs
        (s.fs.write dst off (((s.fs.data src).drop off).take n)) := .write hok.2 (Or.inl rfl)
    exact h.gotoWith hk (by simp [hphase]) hframe (by simp)
      (h.whole.frame hframe rfl fun _ _ hi => hi) rfl ⟨hok.1, hok.2⟩ False.elim
  · rename_i e src dst off hphase
    simp only [CallOk, hphase] at hok
  · cases hstep

theorem Inv.download {archive signature : Bytes} (h : Inv T initial s) (hk : s.calls k = some c)
    (hcareful : Careful T s (.download k archive signature))
    (hstep : s.download T k c archive signature = some s') :
    Inv T initial s' ∧ SoundStep T initial s s' := by
  unfold Host.download at hstep
  split at hstep
  · rename_i locked store hphase
    split at hstep
    · rename_i bin hbin
      obtain rfl := Option.some.inj hstep
      have hver : VerifiedFor T c.info.version bin :=
        ⟨verifyExtract_eq_ok hbin, hcareful c hk bin hbin⟩
      cases store
      · exact h.resolved hk .refl (by simp [hphase]) locked hver
      · exact h.goto hk .refl (by simp [hphase]) hver False.elim
    · obtain rfl := Option.some.inj hstep
      exact h.unresolved hk (by simp [hphase]) locked _
  · cases hstep

/-- The store makes its temporary file the cached binary. -/
theorem Inv.storeRename {locked : Bool} (h : Inv T initial s) (hk : s.calls k = some c)
    (hphase : c.phase = .storeRename locked bin) :
    Inv T initial
        ({ s with fs := s.fs.rename (.tmpBin c.info.version) (.cached c.info.version) }.goto
          k c (.metaWrite locked bin)) ∧
      SoundStep T initial s
        ({ s with fs := s.fs.rename (.tmpBin c.info.version) (.cached c.info.version) }.goto
          k c (.metaWrite locked bin)) := by
  have hok := h.calls k c hk
  simp only [CallOk, hphase] at hok
  obtain ⟨hver, dst, hino, hdata⟩ := hok
  have hframe : Frame (· = c.info.version) s.fs
      (s.fs.rename (.tmpBin c.info.version) (.cached c.info.version)) := .rename rfl
  have hcurrent : (s.fs.rename (.tmpBin c.info.version) (.cached c.info.version)).ino
      .currentBinary = s.fs.ino .currentBinary := by simp [Files.rename]
  refine h.gotoWith hk (by simp [hphase]) hframe
    (by rintro v rfl; exact h.alone hk (by rw [hphase]; trivial)) ⟨?_, ?_⟩ hcurrent hver False.elim
  · rw [hcurrent]
    exact h.whole.currentBinary
  · intro v i hi
    by_cases hv : v = c.info.version
    · subst hv
      obtain rfl : dst = i := by simpa [Files.rename, hino] using hi
      rw [Files.data_rename, hdata]
      exact hver
    · refine h.whole.cached v i ?_
      simpa [Files.rename, hv] using hi

/-- The new binary takes the place of one that is not newer. -/
theorem Inv.replace {new : Bytes} (h : Inv T initial s) (hk : s.calls k = some c)
    (hphase : c.phase = .replace new) (hle : ∀ disk ∈ s.binary, T.version disk ≤ c.info.version) :
    Inv T initial ({ s with
        fs := s.fs.place .currentBinary new
        replaced := (k, new) :: s.replaced }.goto k c .restart) ∧
      SoundStep T initial s ({ s with
        fs := s.fs.place .currentBinary new
        replaced := (k, new) :: s.replaced }.goto k c .restart) := by
  have hok := h.calls k c hk
  simp only [CallOk, hphase] at hok
  obtain ⟨hver, hversion⟩ := hok
  set s' := { s with
    fs := s.fs.place .currentBinary new
    replaced := (k, new) :: s.replaced }.goto k c .restart
  have hbinary : s'.binary = some new := by simp [s', Host.binary, Host.goto, Files.read]
  have hframe : Frame (fun _ => False) s.fs s'.fs := .place
  have hself : ∀ d, s'.calls k = some d → d.phase = .restart := by
    intro d hd
    simp only [s', Host.goto, Function.update_self, Option.some.injEq] at hd
    rw [← hd]
  have hother : ∀ j ≠ k, s'.calls j = s.calls j := fun j hj => Function.update_of_ne hj _ _
  refine ⟨⟨⟨⟨s.fs.next, Files.ino_place_self, ?_⟩, ?_⟩, ?_, ?_, ?_⟩, ?_,
    ⟨new, hbinary, Or.inr hver⟩, ?_⟩
  · exact Or.inr (by rwa [show s'.fs.data s.fs.next = new from Files.data_place_next])
  · intro v i hi
    have hi : s.fs.ino (.cached v) = some i := by
      rwa [show s'.fs.ino (.cached v) = _ from Files.ino_place_of_ne (by simp)] at hi
    rw [(hframe.frozen i (frozen_of_ino hi (by simp) (by simp))).2]
    exact h.whole.cached v i hi
  · intro j d hd
    by_cases hj : j = k
    · subst hj
      simp [CallOk, hself d hd]
    · rw [hother j hj] at hd
      exact (h.calls j d hd).frame hframe (by simp)
  · intro j i hji d hd e he hdst hest
    by_cases hj : j = k
    · subst hj
      rw [hself d hd] at hdst
      exact hdst.elim
    by_cases hi : i = k
    · subst hi
      rw [hself e he] at hest
      exact hest.elim
    rw [hother j hj] at hd
    rw [hother i hi] at he
    exact h.apart j i hji d hd e he hdst hest
  · intro j d hd hne
    by_cases hj : j = k
    · subst hj
      exact absurd (hself d hd) hne
    · exact Or.inr ⟨k, new, Ne.symm hj, List.mem_cons_self, hbinary⟩
  · intro old hold new' hnew'
    obtain rfl : new = new' := Option.some.inj (hbinary.symm.trans hnew')
    exact (hle old hold).trans hversion
  · intro j reason hres
    simp [s', Host.goto] at hres

theorem Inv.next [DecidableEq H] (h : Inv T initial s) (hk : s.calls k = some c)
    (hcareful : Careful T s (.next k))
    (hstep : s.next T k c = some s') : Inv T initial s' ∧ SoundStep T initial s s' := by
  have hok := h.calls k c hk
  have hcareful := hcareful c hk
  rcases hphase : c.phase with _ | locked | ⟨locked, sha256⟩ | locked | ⟨locked, src, dest⟩ | _ |
    ⟨locked, store⟩ | ⟨locked, bin⟩ | ⟨locked, bin, dst, off⟩ | ⟨locked, bin⟩ | ⟨locked, bin⟩ |
    ⟨locked, bin⟩ | ⟨locked, bin⟩ | ⟨locked, bin⟩ | new | new | ⟨new, src, dst, off⟩ | new | e' |
    ⟨e', src, dst, off⟩ | _ <;>
    simp only [CallOk, hphase] at hok hcareful <;> simp only [Host.next, hphase] at hstep
  case start =>
    obtain rfl := Option.some.inj hstep
    refine h.goto hk .refl (by simp [hphase]) ?_ ?_ <;>
      cases c.cache <;> simp [CallOk, Phase.stores]
  case lookup =>
    split at hstep
    · split_ifs at hstep
      · obtain rfl := Option.some.inj hstep
        exact h.goto hk .refl (by simp [hphase]) trivial False.elim
      · obtain rfl := Option.some.inj hstep
        exact h.missed hk (by simp [hphase]) locked
    · obtain rfl := Option.some.inj hstep
      exact h.missed hk (by simp [hphase]) locked
  case hashing =>
    split at hstep
    · split_ifs at hstep
      · obtain rfl := Option.some.inj hstep
        exact h.goto hk .refl (by simp [hphase]) trivial False.elim
      · obtain rfl := Option.some.inj hstep
        exact h.missed hk (by simp [hphase]) locked
    · obtain rfl := Option.some.inj hstep
      exact h.missed hk (by simp [hphase]) locked
  case copyOut =>
    split at hstep
    · rename_i src hsrc
      obtain rfl := Option.some.inj hstep
      exact h.goto hk .refl (by simp [hphase])
        ⟨frozen_of_ino hsrc (by simp) (by simp), h.whole.cached _ _ hsrc, 0, rfl⟩ False.elim
    · obtain rfl := Option.some.inj hstep
      exact h.copyOutFailed hk (by simp [hphase]) locked _
  case copyingOut =>
    split_ifs at hstep with hlen
    obtain rfl := Option.some.inj hstep
    obtain ⟨-, hver, n, hdest⟩ := hok
    -- the copy has reached the end of the cached binary
    have hall : dest = s.fs.data src := by
      rw [hdest, List.take_of_length_le]
      rw [hdest, List.length_take] at hlen
      omega
    exact h.resolved hk .refl (by simp [hphase]) locked (hall ▸ hver)
  case locking =>
    split_ifs at hstep
    obtain rfl := Option.some.inj hstep
    exact h.goto hk ⟨rfl, rfl, rfl, rfl⟩ (by simp [hphase]) trivial False.elim
  case download => cases hstep
  case storeCopy =>
    obtain rfl := Option.some.inj hstep
    have hframe : Frame (· = c.info.version) s.fs (s.fs.create (.tmpBin c.info.version)).1 :=
      .create (Or.inr ⟨_, rfl, rfl⟩)
    refine h.gotoWith hk (by simp [hphase]) hframe (by rintro v rfl; exact hcareful)
      (h.whole.frame hframe (Files.ino_create_of_ne (by simp)) ?_)
      (Files.ino_create_of_ne (by simp))
      ⟨hok, Files.ino_create_self, Nat.zero_le _, Files.data_create_self⟩ fun _ => hcareful
    intro v i hi
    rwa [Files.ino_create_of_ne (by simp)] at hi
  case storing =>
    split_ifs at hstep with hoff
    obtain rfl := Option.some.inj hstep
    obtain ⟨hver, hino, -, hdata⟩ := hok
    refine h.goto hk .refl (by simp [hphase]) ⟨hver, dst, hino, ?_⟩
      (by simp [hphase, Phase.stores])
    rw [hdata, List.take_of_length_le hoff]
  case storeRemove =>
    obtain rfl := Option.some.inj hstep
    obtain ⟨hver, dst, hino, hdata⟩ := hok
    have hframe : Frame (fun _ => False) s.fs (s.fs.remove (.cached c.info.version)) := .remove
    have hne : ∀ m : FileName V, m ≠ .cached c.info.version →
        (s.fs.remove (.cached c.info.version)).ino m = s.fs.ino m :=
      fun m hm => Files.ino_remove_of_ne hm
    refine h.gotoWith hk (by simp [hphase]) hframe (by simp)
      (h.whole.frame hframe (hne _ (by simp)) ?_) (hne _ (by simp))
      ⟨hver, dst, by rwa [hne _ (by simp)], hdata⟩
      fun _ => h.alone hk (by rw [hphase]; trivial)
    intro v i hi
    by_cases hv : v = c.info.version
    · subst hv
      simp at hi
    · rwa [hne _ (by simpa using hv)] at hi
  case storeRename =>
    split at hstep
    · obtain rfl := Option.some.inj hstep
      exact h.storeRename hk hphase
    · obtain rfl := Option.some.inj hstep
      exact h.resolved hk .refl (by simp [hphase]) locked hok.1
  case metaWrite | metaRemove =>
    obtain rfl := Option.some.inj hstep
    exact h.goto hk ⟨rfl, rfl, rfl, rfl⟩ (by simp [hphase]) hok False.elim
  case metaRename =>
    split at hstep
    · obtain rfl := Option.some.inj hstep
      refine h.resolved hk ?_ (by simp [hphase]) locked hok
      exact ⟨rfl, rfl, rfl, rfl⟩
    · obtain rfl := Option.some.inj hstep
      exact h.resolved hk .refl (by simp [hphase]) locked hok
  case check =>
    split_ifs at hstep
    · obtain rfl := Option.some.inj hstep
      exact h.goto hk .refl (by simp [hphase]) trivial False.elim
    · obtain rfl := Option.some.inj hstep
      exact h.goto hk .refl (by simp [hphase]) hok False.elim
  case backup =>
    split at hstep
    · obtain rfl := Option.some.inj hstep
      have hframe : Frame (fun _ => False) s.fs (s.fs.create .backup).1 := .create (Or.inl rfl)
      refine h.gotoWith hk (by simp [hphase]) hframe (by simp)
        (h.whole.frame hframe (Files.ino_create_of_ne (by simp)) ?_)
        (Files.ino_create_of_ne (by simp)) ⟨hok, Files.ino_create_self⟩ False.elim
      intro v i hi
      rwa [Files.ino_create_of_ne (by simp)] at hi
    · obtain rfl := Option.some.inj hstep
      exact h.finish hk .refl (by simp [hphase])
  case backingUp =>
    split_ifs at hstep
    obtain rfl := Option.some.inj hstep
    exact h.goto hk .refl (by simp [hphase]) hok.1 False.elim
  case replace =>
    obtain rfl := Option.some.inj hstep
    exact h.replace hk hphase hcareful
  case rollback =>
    rw [hcareful] at hstep
    obtain rfl := Option.some.inj hstep
    exact h.finish hk .refl (by rintro _ ⟨⟩)
  case restart =>
    obtain rfl := Option.some.inj hstep
    exact h.finish hk .refl (by rintro _ ⟨⟩)

theorem Inv.begin (h : Inv T initial s) (currentVersion : V)
    (info : UpgradeInfo V) (cache : Bool) :
    Inv T initial (s.begin k currentVersion info cache) ∧
      SoundStep T initial s (s.begin k currentVersion info cache) := by
  have hself : ∀ old ∈ s.binary, ∀ new ∈ s.binary, T.version old ≤ T.version new := by
    intro old hold new hnew
    rw [Option.mem_unique hold hnew]
  rw [Host.begin]
  split_ifs
  · exact ⟨⟨h.whole, h.calls, h.apart, h.found⟩, hself, h.whole.exists_binary, by simp⟩
  · have hother : ∀ j d,
        Function.update s.calls k (some ⟨info, cache, s.binary, .start⟩) j = some d →
        j = k ∧ d = ⟨info, cache, s.binary, .start⟩ ∨ s.calls j = some d := by
      intro j d hd
      by_cases hj : j = k
      · subst hj
        exact Or.inl ⟨rfl, by simpa using hd.symm⟩
      · exact Or.inr (by rwa [Function.update_of_ne hj] at hd)
    refine ⟨⟨h.whole, ?_, ?_, ?_⟩, hself, h.whole.exists_binary, by simp⟩
    · intro j d hd
      rcases hother j d hd with ⟨-, rfl⟩ | hd
      · trivial
      · exact h.calls j d hd
    · intro j i hji d hd e he hdst hest
      rcases hother j d hd with ⟨-, rfl⟩ | hd
      · exact hdst.elim
      rcases hother i e he with ⟨-, rfl⟩ | he
      · exact hest.elim
      exact h.apart j i hji d hd e he hdst hest
    · intro j d hd hne
      rcases hother j d hd with ⟨-, rfl⟩ | hd
      · exact Or.inl rfl
      · exact h.found j d hd hne

/-- **A careful step** keeps the invariant and is sound. -/
theorem Inv.step [DecidableEq H] {a : Action V} (h : Inv T initial s) (hcareful : Careful T s a)
    (hstep : s.step T a = some s') : Inv T initial s' ∧ SoundStep T initial s s' := by
  cases a with
  | begin k currentVersion info cache =>
    simp only [Host.step] at hstep
    split at hstep
    · obtain rfl := Option.some.inj hstep
      exact h.begin currentVersion info cache
    · cases hstep
  | next k =>
    obtain ⟨c, hk, hstep⟩ := Option.bind_eq_some_iff.1 hstep
    exact h.next hk hcareful hstep
  | fail k e =>
    obtain ⟨c, hk, rfl⟩ := Option.map_eq_some_iff.1 hstep
    exact h.fail hk e
  | part k n =>
    obtain ⟨c, hk, hstep⟩ := Option.bind_eq_some_iff.1 hstep
    exact h.part hk hstep
  | download k archive signature =>
    obtain ⟨c, hk, hstep⟩ := Option.bind_eq_some_iff.1 hstep
    exact h.download hk hcareful hstep

/-- **The binary is never downgraded and always verified** in a run whose steps are all careful. -/
theorem binary_sound [DecidableEq H] {as : List (Action V)}
    (h : Trace (Host.step T) (Careful T) (.initial initial) as s) :
    Trace (Host.step T) (SoundAt T initial) (.initial initial) as s :=
  h.mono_of_invariant (fun _ _ _ hcareful h hstep => (h.step hcareful hstep).1)
    (fun _ _ h hcareful _ hstep => (h.step hcareful hstep).2) inv_initial

/-! ## A downgrade -/

/-- Archives are binaries, and a binary starts with its version. -/
def plainTools : Tools ℕ Bytes where
  verifyFromFile _ signature := signature = [1]
  extractBinary := .ok
  sha256File := id
  version bin := (bin.headD 0).toNat

/-- A service of version 1 upgrades the binary, up to the replacement. -/
def upgradeTo (k version : ℕ) : List (Action ℕ) :=
  [.begin k 1 ⟨version, "url", "sig", "notes"⟩ false, .next k,
    .download k [version.toUInt8, 7] [1], .next k, .next k, .part k 2, .next k]

/-- One service has been told of version 3, and another of version 2. -/
def twoUpgrades : List (Action ℕ) := upgradeTo 0 3 ++ [.next 0] ++ upgradeTo 1 2

/-- The second replacement is a downgrade: the binary on disk is compared with the new version for
    equality only. -/
theorem not_binary_sound :
    ¬ ∀ as s, Runs (Host.step plainTools) (.initial [1, 7]) as s →
      Trace (Host.step plainTools) (SoundAt plainTools [1, 7]) (.initial [1, 7]) as s := by
  intro h
  have hold : (twoUpgrades.foldlM (Host.step plainTools) (.initial [1, 7])).map Host.binary =
      some (some ([3, 7] : Bytes)) := by decide
  have hnew : ((twoUpgrades ++ [Action.next 1]).foldlM (Host.step plainTools) (.initial [1, 7])).map
      Host.binary = some (some ([2, 7] : Bytes)) := by decide
  obtain ⟨s', hs', hbinary'⟩ := Option.map_eq_some_iff.1 hnew
  obtain ⟨s, hpre, hlast⟩ := (h _ s' (runs_iff.2 hs')).of_append
  rw [runs_iff.1 (hpre.mono fun _ _ _ => trivial)] at hold
  have hbinary : s.binary = some [3, 7] := Option.some.inj hold
  cases hlast with
  | cons hsound hstep hnil =>
    cases hnil
    exact absurd ((hsound s' hstep).1 _ hbinary _ hbinary') (by decide)

/-! ## Two services -/

def Action.service : Action V → ℕ
  | .begin k _ _ _ | .next k | .fail k _ | .part k _ | .download k _ _ => k

theorem calls_next [DecidableEq H] {j : ℕ} (hj : j ≠ k) (hstep : s.next T k c = some s') :
    s'.calls j = s.calls j := by
  simp only [Host.next] at hstep
  split at hstep <;> (try split at hstep) <;> (try split_ifs at hstep) <;> cases hstep <;> simp [hj]

/-- A step of one service is none of another. -/
theorem calls_step [DecidableEq H] {a : Action V} (hstep : s.step T a = some s') {j : ℕ}
    (hj : j ≠ a.service) : s'.calls j = s.calls j := by
  cases a with
  | begin k currentVersion info cache =>
    simp only [Host.step] at hstep
    split at hstep
    · obtain rfl := Option.some.inj hstep
      rw [Host.begin]
      split_ifs
      · rfl
      · exact Function.update_of_ne hj _ _
    · cases hstep
  | next k =>
    obtain ⟨c, -, hstep⟩ := Option.bind_eq_some_iff.1 hstep
    exact calls_next hj hstep
  | fail k e =>
    obtain ⟨c, -, rfl⟩ := Option.map_eq_some_iff.1 hstep
    exact calls_fail hj s e
  | part k n =>
    obtain ⟨c, -, hstep⟩ := Option.bind_eq_some_iff.1 hstep
    simp only [Host.part] at hstep
    split at hstep <;> cases hstep <;> exact calls_goto hj ..
  | download k archive signature =>
    obtain ⟨c, -, hstep⟩ := Option.bind_eq_some_iff.1 hstep
    simp only [Host.download] at hstep
    split at hstep
    · split at hstep
      · split_ifs at hstep <;> cases hstep
        · exact calls_goto hj ..
        · exact calls_resolved hj ..
      · cases hstep
        exact calls_unresolved hj ..
    · cases hstep

instance : DecidablePred (Phase.stores (H := H))
  | .storing _ _ _ _ | .storeRemove _ _ | .storeRename _ _ => .isTrue trivial
  | .start | .lookup _ | .hashing _ _ | .copyOut _ | .copyingOut _ _ _ | .locking | .download _ _
  | .storeCopy _ _ | .metaWrite _ _ | .metaRemove _ _ | .metaRename _ _ | .check _ | .backup _
  | .backingUp _ _ _ _ | .replace _ | .rollback _ | .rollingBack _ _ _ _ | .restart =>
    .isFalse id

/-- Whether a step is careful, where the services are the first `n`. -/
def carefulCheck (T : Tools V H) (n : ℕ) (s : Host V H) : Action V → Bool
  | .begin k _ _ _ => k < n
  | .download k archive signature =>
    (s.calls k).all fun c =>
      match T.verifyExtract archive signature with
      | .ok bin => c.info.version ≤ T.version bin
      | .error _ => true
  | .next k =>
    (s.calls k).all fun c =>
      match c.phase with
      | .storeCopy _ _ => decide (∀ j < n, j ≠ k → ∀ d ∈ s.calls j, d.phase.stores →
          d.info.version ≠ c.info.version)
      | .replace _ => s.binary.all fun disk => T.version disk ≤ c.info.version
      | .rollback _ => (s.fs.ino .backup).isNone
      | _ => true
  | .fail _ _ | .part _ _ => true

theorem careful_of_carefulCheck {n : ℕ} {a : Action V} (hn : ∀ j, n ≤ j → s.calls j = none)
    (h : carefulCheck T n s a = true) : Careful T s a := by
  cases a with
  | download k archive signature =>
    intro c hc bin hbin
    rw [Option.mem_def] at hc
    simpa [carefulCheck, hc, hbin] using h
  | next k =>
    intro c hc
    rw [Option.mem_def] at hc
    simp only [carefulCheck, hc, Option.all_some] at h
    split at h
    · intro j hj d hd
      by_cases hjn : j < n
      · exact of_decide_eq_true h j hjn hj d hd
      · cases (hn j (not_lt.1 hjn)).symm.trans hd
    · intro disk hdisk
      rw [Option.mem_def] at hdisk
      simpa [hdisk] using h
    · exact Option.isNone_iff_eq_none.1 h
    · trivial
  | begin _ _ _ _ | fail _ _ | part _ _ => trivial

/-- There are no calls but of the first `n` services. -/
theorem none_of_carefulCheck [DecidableEq H] {n : ℕ} {a : Action V}
    (h : carefulCheck T n s a = true) (hn : ∀ j, n ≤ j → s.calls j = none)
    (hstep : s.step T a = some s') : ∀ j, n ≤ j → s'.calls j = none := by
  intro j hj
  by_cases hja : j = a.service
  · subst hja
    have hnone := hn _ hj
    cases a with
    | begin k =>
      exact absurd (of_decide_eq_true h) (not_lt.2 hj)
    | next k | fail k e | part k m | download k archive signature =>
      have hnone : s.calls k = none := hnone
      simp [Host.step, hnone] at hstep
  · rw [calls_step hstep hja]
    exact hn j hj

/-- Both are told of version 3. The first fetches it and stores it, the second waits for the lock and
    finds it in the cache, and then at its place. -/
def sharedUpgrade : List (Action ℕ) :=
  [.begin 0 1 ⟨3, "url", "sig", "notes"⟩ true, .begin 1 1 ⟨3, "url", "sig", "notes"⟩ true,
    .next 0, .next 1, .next 0, .next 1, .next 0, .next 0, .download 0 [3, 7] [1], .next 0, .part 0 2,
    .next 0, .next 0, .next 0, .next 0, .next 0, .next 0, .next 1, .next 0, .next 1, .next 0, .next 1,
    .part 0 2, .next 0, .next 1, .next 0, .part 1 2, .next 1, .next 1, .next 0, .next 1]

theorem binary_sound_shared :
    ∃ s : Host ℕ Bytes, (s.results.map Prod.fst = [1, 0] ∧ s.binary = some [3, 7] ∧
        s.replaced = [(0, [3, 7])]) ∧
      Trace (Host.step plainTools) (SoundAt plainTools [1, 7]) (.initial [1, 7]) sharedUpgrade s := by
  have hrun : (sharedUpgrade.foldlM
      (guarded (Host.step plainTools) fun s a => carefulCheck plainTools 2 s a = true)
      (.initial [1, 7])).map (fun s => (s.results.map Prod.fst, s.binary, s.replaced)) =
        some ([1, 0], some ([3, 7] : Bytes), [(0, ([3, 7] : Bytes))]) := by decide
  obtain ⟨s, hs, hends⟩ := Option.map_eq_some_iff.1 hrun
  have htrace := (trace_iff.2 hs).mono_of_invariant (I := fun s => ∀ j, 2 ≤ j → s.calls j = none)
    (fun _ _ _ hcheck hn hstep => none_of_carefulCheck hcheck hn hstep)
    (fun _ _ hn hcheck => careful_of_carefulCheck hn hcheck) fun _ _ => rfl
  simp only [Prod.mk.injEq] at hends
  exact ⟨s, hends, binary_sound htrace⟩

end Autonomi.Upgrade
