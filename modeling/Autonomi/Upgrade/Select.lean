/-
  The choice of an upgrade among the releases (`ant-node/src/upgrade/monitor.rs`).
-/
import Autonomi.Upgrade.Monitor
import Autonomi.Lib.Best

namespace Autonomi.Upgrade

open Lib

inductive UpgradeChannel where
  | stable
  | beta
  deriving DecidableEq, Repr

structure Asset where
  name : String
  browserDownloadUrl : String
  deriving DecidableEq, Repr

structure GitHubRelease where
  tagName : String
  body : String
  assets : List Asset
  deriving DecidableEq, Repr

/-- The versions of the `semver` crate, which are ordered. -/
structure Semver (V : Type) where
  parse : String → Option V
  /-- `version.pre.is_empty()`. -/
  preIsEmpty : V → Bool

/-! ## The names of the platforms -/

def archPatterns (arch : String) : List String :=
  match arch with
  | "x86_64" => ["x86_64", "amd64", "x64"]
  | "aarch64" => ["aarch64", "arm64"]
  | "x86" => ["i686", "i386", "x86"]
  | _ => [arch]

def osPatterns (os : String) : List String :=
  match os with
  | "linux" => ["linux", "unknown-linux-gnu", "linux-gnu"]
  | "macos" => ["darwin", "macos", "apple-darwin"]
  | "windows" => ["windows", "pc-windows-msvc", "win64"]
  | _ => [os]

def buildPlatformPatterns (arch os : String) : List String :=
  (archPatterns arch).flatMap (fun archPat => (osPatterns os).flatMap fun osPat =>
    [archPat ++ "-" ++ osPat, osPat ++ "-" ++ archPat]) ++ archPatterns arch

def contains (name pattern : String) : Prop := pattern.toList <:+: name.toList

instance (name pattern : String) : Decidable (contains name pattern) :=
  inferInstanceAs (Decidable (pattern.toList <:+: name.toList))

/-- Of the letters in the suffixes none is the lowercase of a character outside ASCII. -/
def lowerEndsWith (name suffix : String) : Bool :=
  suffix.toList.isSuffixOf (name.toList.map Char.toLower)

/-- On Windows the executables have their own extension. -/
def isBinaryAsset (os name : String) : Bool :=
  if [".sig", ".sha256", ".md5", ".txt", ".md", ".deb", ".rpm", ".msi"].any (lowerEndsWith name) then
    false
  else if lowerEndsWith name ".tar.gz" || lowerEndsWith name ".zip" then true
  else if os = "windows" && !lowerEndsWith name ".exe" then false
  else true

/-- What `find_platform_asset` looks for. -/
def Matches (os pattern : String) (a : Asset) : Prop :=
  contains a.name pattern ∧ isBinaryAsset os a.name

instance (os pattern : String) : DecidablePred (Matches os pattern) := fun a =>
  inferInstanceAs (Decidable (contains a.name pattern ∧ isBinaryAsset os a.name))

def findPlatformAsset (arch os : String) (assets : List Asset) : Option Asset :=
  (buildPlatformPatterns arch os).findSome? fun pattern => assets.find? (Matches os pattern)

/-! ## The choice -/

section Model

variable {V : Type} [LinearOrder V] (S : Semver V) (arch os : String) (currentVersion : V)
  (channel : UpgradeChannel) (release : GitHubRelease)

def versionFromTag (tag : String) : Option V :=
  match tag.toList with
  | 'v' :: versionStr => S.parse (String.ofList versionStr)
  | _ => S.parse tag

def candidate : Option (UpgradeInfo V) := do
  let version ← versionFromTag S release.tagName
  guard ¬ version ≤ currentVersion
  guard ¬ (channel = .stable ∧ ¬ S.preIsEmpty version)
  let binaryAsset ← findPlatformAsset arch os release.assets
  let sigAsset ← release.assets.find? fun a => a.name = binaryAsset.name ++ ".sig"
  pure ⟨version, binaryAsset.browserDownloadUrl, sigAsset.browserDownloadUrl, release.body⟩

def selectUpgradeFromReleases (releases : List GitHubRelease) : Option (UpgradeInfo V) :=
  releases.foldl (fun best release =>
    match candidate S arch os currentVersion channel release with
    | none => best
    | some candidate =>
      if best.all fun b => b.version < candidate.version then some candidate else best) none

end Model

/-! ## What an upgrade is to be -/

section Spec

variable {V : Type} [LinearOrder V] (S : Semver V) (arch os : String) (currentVersion : V)
  (channel : UpgradeChannel) (release : GitHubRelease) (releases : List GitHubRelease)

def Names (patterns : List String) (name : String) : Prop := ∃ p ∈ patterns, contains name p

instance (patterns : List String) (name : String) : Decidable (Names patterns name) :=
  inferInstanceAs (Decidable (∃ p ∈ patterns, contains name p))

/-- The name has another entry of the table, and not the one of `own`. -/
def NamesOther (table : String → List String) (keys : List String) (own name : String) : Prop :=
  (∃ other ∈ keys, other ≠ own ∧ Names (table other) name) ∧ ¬ Names (table own) name

instance (table : String → List String) (keys : List String) (own name : String) :
    Decidable (NamesOther table keys own name) :=
  inferInstanceAs (Decidable ((∃ other ∈ keys, other ≠ own ∧ Names (table other) name) ∧
    ¬ Names (table own) name))

/-- A binary for the platform. -/
def Suits (name : String) : Prop :=
  isBinaryAsset os name ∧ Names (buildPlatformPatterns arch os) name ∧
    ¬ NamesOther osPatterns ["linux", "macos", "windows"] os name ∧
      ¬ NamesOther archPatterns ["x86_64", "aarch64", "x86"] arch name

instance (name : String) : Decidable (Suits arch os name) :=
  inferInstanceAs (Decidable (isBinaryAsset os name ∧ Names (buildPlatformPatterns arch os) name ∧
    ¬ NamesOther osPatterns ["linux", "macos", "windows"] os name ∧
      ¬ NamesOther archPatterns ["x86_64", "aarch64", "x86"] arch name))

/-- A newer version, of the channel. -/
def Eligible (version : V) : Prop :=
  versionFromTag S release.tagName = some version ∧ currentVersion < version ∧
    (channel = .stable → S.preIsEmpty version)

instance (version : V) : Decidable (Eligible S currentVersion channel release version) :=
  inferInstanceAs (Decidable (versionFromTag S release.tagName = some version ∧
    currentVersion < version ∧ (channel = .stable → S.preIsEmpty version)))

/-- The release has the upgrade: a binary for the platform and the signature of that binary. -/
def Qualifies (info : UpgradeInfo V) : Prop :=
  Eligible S currentVersion channel release info.version ∧
    ∃ binary ∈ release.assets, Suits arch os binary.name ∧
      ∃ sig ∈ release.assets, sig.name = binary.name ++ ".sig" ∧
        info = ⟨info.version, binary.browserDownloadUrl, sig.browserDownloadUrl, release.body⟩

instance [DecidableEq V] (info : UpgradeInfo V) :
    Decidable (Qualifies S arch os currentVersion channel release info) :=
  inferInstanceAs (Decidable (Eligible S currentVersion channel release info.version ∧
    ∃ binary ∈ release.assets, Suits arch os binary.name ∧
      ∃ sig ∈ release.assets, sig.name = binary.name ++ ".sig" ∧
        info = ⟨info.version, binary.browserDownloadUrl, sig.browserDownloadUrl, release.body⟩))

/-- The newest upgrade of those that the releases have, whatever their order. -/
structure IsNewest (selected : Option (UpgradeInfo V)) : Prop where
  qualifies : ∀ info ∈ selected, ∃ release ∈ releases,
    Qualifies S arch os currentVersion channel release info
  newest : ∀ release ∈ releases, ∀ info, Qualifies S arch os currentVersion channel release info →
    ∃ info' : UpgradeInfo V, info' ∈ selected ∧ info.version ≤ info'.version
  anyOrder : ∀ releases', releases.Perm releases' →
    (selectUpgradeFromReleases S arch os currentVersion channel releases').map UpgradeInfo.version =
      selected.map UpgradeInfo.version

/-- `x` is the first in the list of which `p` holds. -/
def FirstWith {α : Type} (p : α → Prop) (l : List α) (x : α) : Prop :=
  ∃ before after, l = before ++ x :: after ∧ p x ∧ ∀ y ∈ before, ¬ p y

/-- The first match, by the order of the patterns and then by that of the assets. -/
def FirstMatch (assets : List Asset) (binary : Asset) : Prop :=
  ∃ pattern, FirstWith (fun p => ∃ a ∈ assets, Matches os p a) (buildPlatformPatterns arch os)
    pattern ∧ FirstWith (Matches os pattern) assets binary

/-- The first match of the release is signed, and `info` is what it makes. -/
def Offers (info : UpgradeInfo V) : Prop :=
  Eligible S currentVersion channel release info.version ∧
    ∃ binary, FirstMatch arch os release.assets binary ∧
      ∃ sig, FirstWith (fun a => a.name = binary.name ++ ".sig") release.assets sig ∧
        info = ⟨info.version, binary.browserDownloadUrl, sig.browserDownloadUrl, release.body⟩

/-- Every release that offers a wrong binary comes with one that offers a right one and is newer, or
    as new and earlier in the list; and every release that has a right binary and offers none, with
    one that offers a right one and is as new. -/
structure Outdone : Prop where
  wrong : ∀ (i : ℕ) (release : GitHubRelease) (info : UpgradeInfo V), releases[i]? = some release →
    Offers S arch os currentVersion channel release info →
    ∃ (j : ℕ) (release' : GitHubRelease) (info' : UpgradeInfo V), releases[j]? = some release' ∧
      Offers S arch os currentVersion channel release' info' ∧
      (∃ r ∈ releases, Qualifies S arch os currentVersion channel r info') ∧
      (info.version < info'.version ∨ info.version = info'.version ∧ j ≤ i)
  missed : ∀ release ∈ releases, ∀ info, Qualifies S arch os currentVersion channel release info →
    ∃ release' ∈ releases, ∃ info' : UpgradeInfo V,
      Offers S arch os currentVersion channel release' info' ∧ info.version ≤ info'.version

end Spec

/-! ## What is chosen -/

section Choice

theorem find?_eq_some_iff_firstWith {α : Type} {p : α → Prop} [DecidablePred p] {l : List α}
    {x : α} : l.find? (fun x => p x) = some x ↔ FirstWith p l x := by
  rw [List.find?_eq_some_iff_append]
  constructor
  · rintro ⟨hx, before, after, hl, hbefore⟩
    exact ⟨before, after, hl, of_decide_eq_true hx, fun y hy => by simpa using hbefore y hy⟩
  · rintro ⟨before, after, hl, hx, hbefore⟩
    exact ⟨decide_eq_true hx, before, after, hl, fun y hy => by simpa using hbefore y hy⟩

theorem FirstWith.mem {α : Type} {p : α → Prop} {l : List α} {x : α} (h : FirstWith p l x) :
    x ∈ l ∧ p x := by
  obtain ⟨before, after, rfl, hx, -⟩ := h
  exact ⟨by simp, hx⟩

variable {V : Type} [LinearOrder V] {S : Semver V} {arch os : String} {currentVersion : V}
  {channel : UpgradeChannel} {release : GitHubRelease} {releases : List GitHubRelease}
  {info : UpgradeInfo V}

theorem findPlatformAsset_eq_some_iff {assets : List Asset} {binary : Asset} :
    findPlatformAsset arch os assets = some binary ↔ FirstMatch arch os assets binary := by
  rw [findPlatformAsset, List.findSome?_eq_some_iff]
  constructor
  · rintro ⟨before, pattern, after, hl, hfind, hbefore⟩
    have hfirst := find?_eq_some_iff_firstWith.1 hfind
    refine ⟨pattern, ⟨before, after, hl, ⟨binary, hfirst.mem⟩, ?_⟩, hfirst⟩
    rintro q hq ⟨a, ha, hmatches⟩
    have hnone := List.find?_eq_none.1 (hbefore q hq) a ha
    exact hnone (decide_eq_true hmatches)
  · rintro ⟨pattern, ⟨before, after, hl, -, hbefore⟩, hfirst⟩
    refine ⟨before, pattern, after, hl, find?_eq_some_iff_firstWith.2 hfirst, fun q hq => ?_⟩
    refine List.find?_eq_none.2 fun a ha hmatches => ?_
    exact hbefore q hq ⟨a, ha, of_decide_eq_true hmatches⟩

theorem candidate_eq_some_iff :
    candidate S arch os currentVersion channel release = some info ↔
      Offers S arch os currentVersion channel release info := by
  have hguard {p : Prop} [Decidable p] {u : Unit} : (guard p : Option Unit) = some u ↔ p := by
    by_cases hp : p <;> simp [hp]
  simp only [candidate, Offers, Eligible, ← findPlatformAsset_eq_some_iff,
    ← find?_eq_some_iff_firstWith, Option.bind_eq_bind, Option.bind_eq_some_iff, hguard]
  constructor
  · rintro ⟨version, htag, -, hnewer, -, hchannel, binary, hbinary, sig, hsig, hinfo⟩
    obtain rfl := Option.some.inj hinfo
    exact ⟨⟨htag, not_le.1 hnewer, by tauto⟩, binary, hbinary, sig, hsig, rfl⟩
  · rintro ⟨⟨htag, hnewer, hchannel⟩, binary, hbinary, sig, hsig, hinfo⟩
    refine ⟨info.version, htag, (), not_le.2 hnewer, (), by tauto, binary, hbinary, sig, hsig, ?_⟩
    exact congrArg some hinfo.symm

theorem selectUpgradeFromReleases_eq :
    selectUpgradeFromReleases S arch os currentVersion channel releases =
      releases.foldl (scan (candidate S arch os currentVersion channel) UpgradeInfo.version)
        none := by
  rw [selectUpgradeFromReleases]
  congr 1
  funext best release
  cases hcandidate : candidate S arch os currentVersion channel release with
  | none => rw [scan_of_none hcandidate]
  | some info => rw [scan_of_some hcandidate, better]

/-- What the loop leaves: nothing is offered, or the first of the newest offers. -/
theorem selectUpgradeFromReleases_spec (S : Semver V) (arch os : String) (currentVersion : V)
    (channel : UpgradeChannel) (releases : List GitHubRelease) :
    (selectUpgradeFromReleases S arch os currentVersion channel releases = none ∧
        ∀ release ∈ releases, ∀ info, ¬ Offers S arch os currentVersion channel release info) ∨
      ∃ info, selectUpgradeFromReleases S arch os currentVersion channel releases = some info ∧
        ∃ (i : ℕ) (release : GitHubRelease), releases[i]? = some release ∧
          Offers S arch os currentVersion channel release info ∧
          ∀ (j : ℕ) (release' : GitHubRelease) (info' : UpgradeInfo V),
            releases[j]? = some release' → Offers S arch os currentVersion channel release' info' →
              info'.version ≤ info.version ∧ (j < i → info'.version < info.version) := by
  simp only [← candidate_eq_some_iff, selectUpgradeFromReleases_eq]
  rcases foldl_scan_spec (candidate S arch os currentVersion channel) UpgradeInfo.version releases
    with ⟨hbest, hnone⟩ | ⟨info, hbest, hpicks⟩
  · refine Or.inl ⟨hbest, fun release hrelease info hinfo => ?_⟩
    rw [hnone release hrelease] at hinfo
    cases hinfo
  · exact Or.inr ⟨info, hbest, hpicks⟩

theorem Offers.unique {info' : UpgradeInfo V}
    (h : Offers S arch os currentVersion channel release info)
    (h' : Offers S arch os currentVersion channel release info') : info = info' := by
  rw [← candidate_eq_some_iff] at h h'
  exact Option.some.inj (h.symm.trans h')

theorem outdone_of_isNewest (h : IsNewest S arch os currentVersion channel releases
      (selectUpgradeFromReleases S arch os currentVersion channel releases)) :
    Outdone S arch os currentVersion channel releases := by
  refine ⟨fun i release info hi hoffers => ?_, fun release hrelease info hq => ?_⟩
  · rcases selectUpgradeFromReleases_spec S arch os currentVersion channel releases with
      ⟨-, hnone⟩ | ⟨best, hbest, k, r, hk, hr, hmax⟩
    · exact absurd hoffers (hnone release (List.mem_of_getElem? hi) info)
    · obtain ⟨hle, hlt⟩ := hmax i release info hi hoffers
      refine ⟨k, r, best, hk, hr, h.qualifies best hbest, ?_⟩
      rcases hle.lt_or_eq with hless | heq
      · exact Or.inl hless
      · exact Or.inr ⟨heq, not_lt.1 fun hik => (hlt hik).ne heq⟩
  · obtain ⟨best, hbest, hle⟩ := h.newest release hrelease info hq
    rcases selectUpgradeFromReleases_spec S arch os currentVersion channel releases with
      ⟨hnone, -⟩ | ⟨best', hbest', k, r, hk, hr, -⟩
    · rw [hnone] at hbest
      cases hbest
    · rw [hbest'] at hbest
      obtain rfl := Option.some.inj hbest
      exact ⟨r, List.mem_of_getElem? hk, best', hr, hle⟩

theorem isNewest_of_outdone (h : Outdone S arch os currentVersion channel releases) :
    IsNewest S arch os currentVersion channel releases
      (selectUpgradeFromReleases S arch os currentVersion channel releases) := by
  refine ⟨fun best hbest => ?_, fun release hrelease info hq => ?_, fun releases' hperm => ?_⟩
  · rcases selectUpgradeFromReleases_spec S arch os currentVersion channel releases with
      ⟨hnone, -⟩ | ⟨best', hbest', i, r, hi, hr, hmax⟩
    · rw [hnone] at hbest
      cases hbest
    · rw [hbest'] at hbest
      obtain rfl := Option.some.inj hbest
      obtain ⟨j, r', info', hj, hr', hright, hnewer | ⟨heq, hji⟩⟩ := h.wrong i r best' hi hr
      · exact absurd hnewer (hmax j r' info' hj hr').1.not_gt
      · rcases hji.lt_or_eq with hlt | rfl
        · exact absurd heq ((hmax j r' info' hj hr').2 hlt).ne'
        · rw [hi] at hj
          obtain rfl := Option.some.inj hj
          rwa [hr.unique hr']
  · obtain ⟨r', hmem, info', hoffers, hle⟩ := h.missed release hrelease info hq
    rcases selectUpgradeFromReleases_spec S arch os currentVersion channel releases with
      ⟨-, hnone⟩ | ⟨best, hbest, i, r, hi, hr, hmax⟩
    · exact absurd hoffers (hnone r' hmem info')
    · obtain ⟨j, hj⟩ := List.getElem?_of_mem hmem
      exact ⟨best, hbest, hle.trans (hmax j r' info' hj hoffers).1⟩
  · rw [selectUpgradeFromReleases_eq, selectUpgradeFromReleases_eq]
    exact foldl_scan_perm hperm.symm

/-- **The newest right upgrade is chosen exactly when each wrong or missed release is outdone.** -/
theorem isNewest_iff :
    IsNewest S arch os currentVersion channel releases
        (selectUpgradeFromReleases S arch os currentVersion channel releases) ↔
      Outdone S arch os currentVersion channel releases :=
  ⟨outdone_of_isNewest, isNewest_of_outdone⟩

end Choice

/-- One version only. -/
def oneVersion : Semver ℕ where
  parse := fun tag => if tag = "1.1.0" then some 110 else none
  preIsEmpty := fun _ => true

/-- Of a release whose other assets are not uploaded yet. -/
def macosOnly : GitHubRelease where
  tagName := "v1.1.0"
  body := ""
  assets :=
    [⟨"ant-node-cli-macos-x64.tar.gz", "https://example.com/macos"⟩,
      ⟨"ant-node-cli-macos-x64.tar.gz.sig", "https://example.com/macos.sig"⟩]

theorem not_isNewest :
    selectUpgradeFromReleases oneVersion "x86_64" "linux" 100 .stable [macosOnly] =
        some ⟨110, "https://example.com/macos", "https://example.com/macos.sig", ""⟩ ∧
      ¬ IsNewest oneVersion "x86_64" "linux" 100 .stable [macosOnly]
        (selectUpgradeFromReleases oneVersion "x86_64" "linux" 100 .stable [macosOnly]) := by
  have hselect : selectUpgradeFromReleases oneVersion "x86_64" "linux" 100 .stable [macosOnly] =
      some ⟨110, "https://example.com/macos", "https://example.com/macos.sig", ""⟩ := by
    decide +kernel
  refine ⟨hselect, fun h => ?_⟩
  rw [hselect] at h
  have hqualifies := h.qualifies _ rfl
  revert hqualifies
  decide +kernel

end Autonomi.Upgrade
