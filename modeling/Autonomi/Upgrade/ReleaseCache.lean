/-
  Node services on one machine that look for releases, with one cache of what the API has answered
  (`upgrade/release_cache.rs`, `check_for_updates` of `upgrade/monitor.rs`).
-/
import Autonomi.Lib.Files
import Autonomi.Lib.Trace
import Autonomi.Upgrade.Select

namespace Autonomi.Upgrade.ReleaseCache

open Lib

abbrev Bytes := List UInt8

/-- `releases.json` and `releases.json.tmp`. -/
inductive FileName where
  | cacheFile
  | tmpPath
  deriving DecidableEq

structure CachedReleases where
  repo : String
  fetchedAtEpochSecs : ℕ
  releases : List GitHubRelease
  deriving DecidableEq

/-- `serde_json` on the container. -/
structure Json where
  toString : CachedReleases → Except String Bytes
  fromStr : Bytes → Option CachedReleases

/-- What is written is read back. -/
def Json.Lawful (J : Json) : Prop :=
  ∀ cached json, J.toString cached = .ok json → J.fromStr json = some cached

/-- Where a call of `check_for_updates` is. `locked` says whether it holds the cache lock; `src` and
    `dst` are open files. -/
inductive Phase where
  /-- `read_if_valid` opens the file, then it reads it and the clock. -/
  | opening (locked : Bool)
  | reading (locked : Bool) (src : ℕ)
  | locking
  /-- The request to the API is in flight. -/
  | fetching (locked : Bool)
  /-- `write_inner`, step by step. -/
  | stamping (releases : List GitHubRelease)
  | creating (releases : List GitHubRelease) (json : Bytes)
  | writing (releases : List GitHubRelease) (json : Bytes) (dst off : ℕ)
  | removing (releases : List GitHubRelease)
  | replacing (releases : List GitHubRelease)

/-- Whether the call holds the lock. -/
def Phase.locked : Phase → Bool
  | .opening locked | .reading locked _ | .fetching locked => locked
  | .locking => false
  | .stamping _ | .creating _ _ | .writing _ _ _ _ | .removing _ | .replacing _ => true

/-- What a service is looking for. -/
structure Query (V : Type) where
  repo : String
  currentVersion : V
  channel : UpgradeChannel
  /-- Whether the monitor has a cache. -/
  cache : Bool

structure Call (V : Type) where
  query : Query V
  /-- When the call began. -/
  began : ℕ
  phase : Phase

/-- An answer of the API, and when it came. -/
structure Fetch where
  service : ℕ
  repo : String
  releases : List GitHubRelease
  time : ℕ
  /-- By a call that holds the lock. -/
  locked : Bool

/-- A container that a call has made for the answer it got, and that it writes to the cache. -/
structure Stamp where
  service : ℕ
  /-- When the call began. -/
  began : ℕ
  cached : CachedReleases

/-- What a call has found; `cached` says whether it was the cache that had it. -/
structure Found (V : Type) where
  service : ℕ
  query : Query V
  began : ℕ
  time : ℕ
  cached : Bool
  releases : Except String (List GitHubRelease)

/-- The host of the services. `fetches` has what the API answered, `stamps` the containers that were
    made of it, and `found` what the calls came to, the latest first. -/
structure Host (V : Type) where
  fs : Files FileName
  /-- In whole seconds; the clock does not go back. -/
  now : ℕ
  lock : Option ℕ
  calls : ℕ → Option (Call V)
  fetches : List Fetch
  stamps : List Stamp
  found : List (Found V)

inductive Action (V : Type) where
  | begin (service : ℕ) (query : Query V)
  /-- The next operation of its call succeeds, so far as the files let it. -/
  | next (service : ℕ)
  /-- It fails. -/
  | fail (service : ℕ) (e : String)
  /-- `write_all` proceeds. -/
  | part (service n : ℕ)
  /-- The API answers. -/
  | answer (service : ℕ) (releases : List GitHubRelease)
  /-- The service dies; its locks are released. -/
  | crash (service : ℕ)
  /-- The clock goes on. -/
  | tick (secs : ℕ)

/-! ## The calls -/

section Model

variable {V : Type}

/-- What `check_for_updates` returns. -/
def Found.upgradeInfo [LinearOrder V] (S : Semver V) (arch os : String) (f : Found V) :
    Except String (Option (UpgradeInfo V)) :=
  f.releases.map
    (selectUpgradeFromReleases S arch os f.query.currentVersion f.query.channel)

/-- The checks of `read_if_valid`, at the time `now`. -/
def readIfValid (J : Json) (ttl now : ℕ) (repo : String) (data : Bytes) :
    Option (List GitHubRelease) := do
  let cached ← J.fromStr data
  guard (cached.repo = repo)
  guard (now - cached.fetchedAtEpochSecs < ttl)
  pure cached.releases

namespace Host

/-- An empty cache directory. -/
def initial (now : ℕ) : Host V where
  fs := ⟨fun _ => none, fun _ => [], 0, nofun, nofun⟩
  now := now
  lock := none
  calls _ := none
  fetches := []
  stamps := []
  found := []

variable (J : Json) (ttl : ℕ) (s : Host V) (k : ℕ) (c : Call V)

def goto (phase : Phase) : Host V :=
  { s with calls := Function.update s.calls k (some { c with phase := phase }) }

/-- The call ends, and with it its lock. -/
def drop : Host V :=
  { s with
    calls := Function.update s.calls k none
    lock := if c.phase.locked then none else s.lock }

def finish (cached : Bool) (releases : Except String (List GitHubRelease)) : Host V :=
  { s.drop k c with found := ⟨k, c.query, c.began, s.now, cached, releases⟩ :: s.found }

/-- The cache has nothing valid. -/
def missed (locked : Bool) : Host V :=
  s.goto k c (if locked then .fetching true else .locking)

def next : Option (Host V) :=
  match c.phase with
  | .opening locked =>
    match s.fs.ino .cacheFile with
    | some src => some (s.goto k c (.reading locked src))
    | none => some (s.missed k c locked)
  | .reading locked src =>
    match readIfValid J ttl s.now c.query.repo (s.fs.data src) with
    | some releases => some (s.finish k c true (.ok releases))
    | none => some (s.missed k c locked)
  | .locking =>
    if s.lock.isNone then some ({ s with lock := some k }.goto k c (.opening true)) else none
  | .fetching _ => none
  | .stamping releases =>
    match J.toString ⟨c.query.repo, s.now, releases⟩ with
    | .ok json =>
      some ({ s with stamps := ⟨k, c.began, c.query.repo, s.now, releases⟩ :: s.stamps }.goto k c
        (.creating releases json))
    | .error _ => some (s.finish k c false (.ok releases))
  | .creating releases json =>
    let (fs, dst) := s.fs.create .tmpPath
    some ({ s with fs := fs }.goto k c (.writing releases json dst 0))
  | .writing releases json _ off =>
    if off ≥ json.length then some (s.goto k c (.removing releases)) else none
  | .removing releases =>
    some ({ s with fs := s.fs.remove .cacheFile }.goto k c (.replacing releases))
  | .replacing releases =>
    match s.fs.ino .tmpPath with
    | some _ =>
      some ({ s with fs := s.fs.rename .tmpPath .cacheFile }.finish k c false (.ok releases))
    | none => some (s.finish k c false (.ok releases))

def fail (e : String) : Host V :=
  match c.phase with
  | .opening locked | .reading locked _ => s.missed k c locked
  | .locking | .fetching _ => s.finish k c false (.error e)
  -- what was fetched is used even if it cannot be written
  | .stamping releases | .creating releases _ | .writing releases _ _ _ | .replacing releases =>
    s.finish k c false (.ok releases)
  -- whether the old file could be removed is ignored
  | .removing releases => s.goto k c (.replacing releases)

def part (n : ℕ) : Option (Host V) :=
  match c.phase with
  | .writing releases json dst off =>
    let d := (json.drop off).take n
    some ({ s with fs := s.fs.write dst off d }.goto k c (.writing releases json dst (off + d.length)))
  | _ => none

def answer (releases : List GitHubRelease) : Option (Host V) :=
  match c.phase with
  | .fetching locked =>
    let s := { s with fetches := ⟨k, c.query.repo, releases, s.now, locked⟩ :: s.fetches }
    some (if locked then s.goto k c (.stamping releases) else s.finish k c false (.ok releases))
  | _ => none

def step (s : Host V) : Action V → Option (Host V)
  | .begin k query =>
    match s.calls k with
    | none => some { s with
        calls := Function.update s.calls k
          (some ⟨query, s.now, if query.cache then .opening false else .fetching false⟩) }
    | some _ => none
  | .next k => (s.calls k).bind fun c => s.next J ttl k c
  | .fail k e => (s.calls k).map fun c => s.fail k c e
  | .part k n => (s.calls k).bind fun c => s.part k c n
  | .answer k releases => (s.calls k).bind fun c => s.answer k c releases
  | .crash k => (s.calls k).map fun c => s.drop k c
  | .tick secs => some { s with now := s.now + secs }

end Host

end Model

end Autonomi.Upgrade.ReleaseCache
