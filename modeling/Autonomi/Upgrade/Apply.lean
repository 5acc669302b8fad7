/-
  Node services that upgrade one binary, with one cache of verified binaries (`upgrade/apply.rs`,
  `upgrade/binary_cache.rs`).
-/
import Autonomi.Lib.Files
import Autonomi.Lib.Trace
import Autonomi.Upgrade.Monitor

namespace Autonomi.Upgrade

open Lib

abbrev Bytes := List UInt8

/-- The files that the services share; each has its own temp directory besides. -/
inductive FileName (V : Type) where
  | currentBinary
  | backup
  | cached (version : V)
  | tmpBin (version : V)
  deriving DecidableEq

inductive UpgradeResult (V : Type) where
  | success (version : V) (exitCode : ℕ)
  | rolledBack (reason : String)
  | noUpgrade
  deriving DecidableEq, Repr

structure CachedBinaryMeta (V H : Type) where
  version : V
  sha256 : H
  deriving DecidableEq

/-- Where a call of `apply_upgrade` is. `locked` says whether it holds the download lock, `src` and
    `dst` are open files, and what is copied into the temp directory is at hand. -/
inductive Phase (H : Type) where
  | start
  /-- `get_verified` reads the metadata, then the binary. -/
  | lookup (locked : Bool)
  | hashing (locked : Bool) (sha256 : H)
  | copyOut (locked : Bool)
  | copyingOut (locked : Bool) (src : ℕ) (dest : Bytes)
  | locking
  | download (locked store : Bool)
  /-- `store`, step by step. -/
  | storeCopy (locked : Bool) (bin : Bytes)
  | storing (locked : Bool) (bin : Bytes) (dst off : ℕ)
  | storeRemove (locked : Bool) (bin : Bytes)
  | storeRename (locked : Bool) (bin : Bytes)
  | metaWrite (locked : Bool) (bin : Bytes)
  | metaRemove (locked : Bool) (bin : Bytes)
  | metaRename (locked : Bool) (bin : Bytes)
  /-- `on_disk_version` runs the binary. -/
  | check (new : Bytes)
  | backup (new : Bytes)
  | backingUp (new : Bytes) (src dst off : ℕ)
  | replace (new : Bytes)
  | rollback (e : String)
  | rollingBack (e : String) (src dst off : ℕ)
  | restart

structure Call (V H : Type) where
  info : UpgradeInfo V
  cache : Bool
  /-- The binary when the call began. -/
  found : Option Bytes
  phase : Phase H

/-- The host of the services. `results` has what the calls returned and `replaced` who replaced the
    binary by what, the latest first. -/
structure Host (V H : Type) where
  fs : Files (FileName V)
  metas : V → Option (CachedBinaryMeta V H)
  tmpMeta : V → Option (CachedBinaryMeta V H)
  lock : Option ℕ
  calls : ℕ → Option (Call V H)
  results : List (ℕ × Except String (UpgradeResult V))
  replaced : List (ℕ × Bytes)

inductive Action (V : Type) where
  /-- A service of the version `currentVersion` applies an upgrade. -/
  | begin (service : ℕ) (currentVersion : V) (info : UpgradeInfo V) (cache : Bool)
  /-- The next operation of its call succeeds, so far as the files let it. -/
  | next (service : ℕ)
  /-- It fails. -/
  | fail (service : ℕ) (e : String)
  /-- A copy proceeds. -/
  | part (service n : ℕ)
  /-- The archive and the signature are downloaded. -/
  | download (service : ℕ) (archive signature : Bytes)

/-- What the services get from libraries: the signature check, the extraction from an archive, the
    hash, and the version that a binary reports. -/
structure Tools (V H : Type) where
  verifyFromFile : Bytes → Bytes → Bool
  extractBinary : Bytes → Except String Bytes
  sha256File : Bytes → H
  version : Bytes → V

/-! ## The steps of a call -/

section

variable {V H : Type} [LinearOrder V] [DecidableEq H]

/-- Nothing but the binary, of a version that runs. -/
def Host.initial (binary : Bytes) : Host V H where
  fs := .single .currentBinary binary
  metas _ := none
  tmpMeta _ := none
  lock := none
  calls _ := none
  results := []
  replaced := []

/-- The binary at the shared path. -/
def Host.binary (s : Host V H) : Option Bytes := s.fs.read .currentBinary

/-- The verification and extraction of `download_verify_extract`. -/
def Tools.verifyExtract (T : Tools V H) (archive signature : Bytes) : Except String Bytes :=
  if T.verifyFromFile archive signature then T.extractBinary archive
  else .error "Signature verification failed"

namespace Host

variable (T : Tools V H) (s : Host V H) (k : ℕ) (c : Call V H)

def goto (phase : Phase H) : Host V H :=
  { s with calls := Function.update s.calls k (some { c with phase := phase }) }

def finish (result : Except String (UpgradeResult V)) : Host V H :=
  { s with calls := Function.update s.calls k none, results := (k, result) :: s.results }

def unlock (locked : Bool) : Host V H := if locked then { s with lock := none } else s

def begin (currentVersion : V) (info : UpgradeInfo V) (cache : Bool) : Host V H :=
  if info.version ≤ currentVersion then { s with results := (k, .ok .noUpgrade) :: s.results }
  else { s with calls := Function.update s.calls k (some ⟨info, cache, s.binary, .start⟩) }

/-- `resolve_upgrade_binary` returns the new binary. -/
def resolved (locked : Bool) (new : Bytes) : Host V H := (s.unlock locked).goto k c (.check new)

def unresolved (locked : Bool) (e : String) : Host V H :=
  (s.unlock locked).finish k (.ok (.rolledBack e))

/-- The cache has no verified binary. -/
def missed (locked : Bool) : Host V H :=
  s.goto k c (if locked then .download true true else .locking)

/-- Only without the lock is the release downloaded again. -/
def copyOutFailed (locked : Bool) (e : String) : Host V H :=
  if locked then s.unresolved k true e else s.goto k c (.download false true)

def next : Option (Host V H) :=
  let v := c.info.version
  match c.phase with
  | .start => some (s.goto k c (if c.cache then .lookup false else .download false false))
  | .lookup locked =>
    match s.metas v with
    | some m =>
      if m.version = v then some (s.goto k c (.hashing locked m.sha256))
      else some (s.missed k c locked)
    | none => some (s.missed k c locked)
  | .hashing locked sha256 =>
    match s.fs.read (.cached v) with
    | some bin =>
      if T.sha256File bin = sha256 then some (s.goto k c (.copyOut locked))
      else some (s.missed k c locked)
    | none => some (s.missed k c locked)
  | .copyOut locked =>
    match s.fs.ino (.cached v) with
    | some src => some (s.goto k c (.copyingOut locked src []))
    | none => some (s.copyOutFailed k c locked "No such file or directory")
  | .copyingOut locked src dest =>
    if dest.length ≥ (s.fs.data src).length then some (s.resolved k c locked dest) else none
  | .locking =>
    if s.lock.isNone then some ({ s with lock := some k }.goto k c (.lookup true)) else none
  | .download _ _ => none
  | .storeCopy locked bin =>
    let (fs, dst) := s.fs.create (.tmpBin v)
    some ({ s with fs := fs }.goto k c (.storing locked bin dst 0))
  | .storing locked bin _ off =>
    if off ≥ bin.length then some (s.goto k c (.storeRemove locked bin)) else none
  | .storeRemove locked bin =>
    some ({ s with fs := s.fs.remove (.cached v) }.goto k c (.storeRename locked bin))
  | .storeRename locked bin =>
    match s.fs.ino (.tmpBin v) with
    | some _ =>
      some ({ s with fs := s.fs.rename (.tmpBin v) (.cached v) }.goto k c (.metaWrite locked bin))
    | none => some (s.resolved k c locked bin)
  | .metaWrite locked bin =>
    some ({ s with tmpMeta := Function.update s.tmpMeta v (some ⟨v, T.sha256File bin⟩) }.goto k c
      (.metaRemove locked bin))
  | .metaRemove locked bin =>
    some ({ s with metas := Function.update s.metas v none }.goto k c (.metaRename locked bin))
  | .metaRename locked bin =>
    match s.tmpMeta v with
    | some m =>
      some ({ s with
        metas := Function.update s.metas v (some m)
        tmpMeta := Function.update s.tmpMeta v none }.resolved k c locked bin)
    | none => some (s.resolved k c locked bin)
  | .check new =>
    if s.binary.any fun disk => T.version disk = v then some (s.goto k c .restart)
    else some (s.goto k c (.backup new))
  | .backup new =>
    match s.fs.ino .currentBinary with
    | some src =>
      let (fs, dst) := s.fs.create .backup
      some ({ s with fs := fs }.goto k c (.backingUp new src dst 0))
    | none => some (s.finish k (.ok (.rolledBack "Backup failed: No such file or directory")))
  | .backingUp new src _ off =>
    if off ≥ (s.fs.data src).length then some (s.goto k c (.replace new)) else none
  | .replace new =>
    some ({ s with
      fs := s.fs.place .currentBinary new
      replaced := (k, new) :: s.replaced }.goto k c .restart)
  | .rollback e =>
    match s.fs.ino .backup with
    | some src =>
      let (fs, dst) := s.fs.create .currentBinary
      some ({ s with fs := fs }.goto k c (.rollingBack e src dst 0))
    | none => some (s.finish k (.error "Critical: replacement failed AND rollback failed"))
  | .rollingBack e src _ off =>
    if off ≥ (s.fs.data src).length
    then some (s.finish k (.ok (.rolledBack s!"Replacement failed: {e}"))) else none
  | .restart => some (s.finish k (.ok (.success v 0)))

def fail (e : String) : Host V H :=
  match c.phase with
  | .start => s.finish k (.error e)
  | .lookup locked | .hashing locked _ => s.missed k c locked
  | .copyOut locked | .copyingOut locked _ _ => s.copyOutFailed k c locked e
  | .locking => s.unresolved k false e
  | .download locked _ => s.unresolved k locked e
  -- the binary is used even if it cannot be stored
  | .storeCopy locked bin | .storing locked bin _ _ | .storeRename locked bin
  | .metaWrite locked bin | .metaRename locked bin => s.resolved k c locked bin
  -- whether the old file could be removed is ignored
  | .storeRemove locked bin => s.goto k c (.storeRename locked bin)
  | .metaRemove locked bin => s.goto k c (.metaRename locked bin)
  | .check new => s.goto k c (.backup new)
  | .backup _ | .backingUp _ _ _ _ => s.finish k (.ok (.rolledBack s!"Backup failed: {e}"))
  | .replace _ => s.goto k c (.rollback e)
  | .rollback reason | .rollingBack reason _ _ _ =>
    s.finish k (.error s!"Critical: replacement failed ({reason}) AND rollback failed ({e})")
  | .restart => s.finish k (.error e)

def part (n : ℕ) : Option (Host V H) :=
  match c.phase with
  | .copyingOut locked src dest =>
    some (s.goto k c (.copyingOut locked src (dest ++ ((s.fs.data src).drop dest.length).take n)))
  | .storing locked bin dst off =>
    let d := (bin.drop off).take n
    some ({ s with fs := s.fs.write dst off d }.goto k c (.storing locked bin dst (off + d.length)))
  | .backingUp new src dst off =>
    let d := ((s.fs.data src).drop off).take n
    some ({ s with fs := s.fs.write dst off d }.goto k c (.backingUp new src dst (off + d.length)))
  | .rollingBack e src dst off =>
    let d := ((s.fs.data src).drop off).take n
    some ({ s with fs := s.fs.write dst off d }.goto k c (.rollingBack e src dst (off + d.length)))
  | _ => none

def download (archive signature : Bytes) : Option (Host V H) :=
  match c.phase with
  | .download locked store =>
    match T.verifyExtract archive signature with
    | .ok bin =>
      some (if store then s.goto k c (.storeCopy locked bin) else s.resolved k c locked bin)
    | .error e => some (s.unresolved k locked e)
  | _ => none

def step (T : Tools V H) (s : Host V H) : Action V → Option (Host V H)
  | .begin k currentVersion info cache =>
    match s.calls k with
    | none => some (s.begin k currentVersion info cache)
    | some _ => none
  | .next k => (s.calls k).bind fun c => s.next T k c
  | .fail k e => (s.calls k).map fun c => s.fail k c e
  | .part k n => (s.calls k).bind fun c => s.part k c n
  | .download k archive signature => (s.calls k).bind fun c => s.download T k c archive signature

end Host

end

end Autonomi.Upgrade
