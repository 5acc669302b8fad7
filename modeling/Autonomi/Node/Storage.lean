/-
  The node's store (`ant-node/src/storage/lmdb.rs`): the transactions of LMDB,
  any operation of which may fail, and the checks around them.
-/
import Autonomi.Lib.Except
import Autonomi.Node.Message

namespace Autonomi.AntNode

open Lib

/-- The errors of `error.rs` that the modelled functions make. -/
inductive Error where
  | storage (msg : String)
  | payment (msg : String)
  | protocol (msg : String)
  deriving DecidableEq

def Error.text : Error → String
  | .storage msg => s!"storage error: {msg}"
  | .payment msg => s!"payment error: {msg}"
  | .protocol msg => s!"protocol error: {msg}"

structure LmdbStorageConfig where
  verifyOnRead : Bool
  /-- 0 for no limit. -/
  maxChunks : ℕ
  deriving DecidableEq

structure StorageStats where
  chunksStored : ℕ
  chunksRetrieved : ℕ
  bytesStored : ℕ
  bytesRetrieved : ℕ
  duplicates : ℕ
  verificationFailures : ℕ
  deriving DecidableEq

/-- One value for each key. -/
abbrev Database := AList fun _ : XorName => Bytes

structure LmdbStorage where
  db : Database
  config : LmdbStorageConfig
  stats : StorageStats
  deriving DecidableEq

def computeAddress (P : Primitives) (content : Bytes) : XorName := P.blake3 content

/-- What may fail of a transaction; `task` is the blocking task that runs it. -/
inductive LmdbOp where
  | readTxn | writeTxn | get | stat | put | delete | commit | task
  deriving DecidableEq

/-- The failures of one call, each with its message. -/
abbrev Faults := LmdbOp → Option String

def Faults.none : Faults := fun _ => Option.none

def attempt (fault : Option String) (text : String → String) : Except Error Unit :=
  match fault with
  | some e => .error (.storage (text e))
  | none => .ok ()

namespace LmdbStorage

variable (P : Primitives) (s : LmdbStorage) (address : XorName) (content : Bytes) (faults : Faults)

def existsAt : Except Error Bool := do
  attempt (faults .readTxn) fun e => s!"Failed to create read txn: {e}"
  attempt (faults .get) fun e => s!"Failed to check existence: {e}"
  pure (s.db.lookup address).isSome

def readTxn : Except Error (Option Bytes) := do
  attempt (faults .task) fun e => s!"LMDB get task failed: {e}"
  attempt (faults .readTxn) fun e => s!"Failed to create read txn: {e}"
  attempt (faults .get) fun e => s!"Failed to get chunk: {e}"
  pure (s.db.lookup address)

def get : Except Error (Option Bytes) × LmdbStorage :=
  match s.readTxn address faults with
  | .error e => (.error e, s)
  | .ok none => (.ok none, s)
  | .ok (some content) =>
    if s.config.verifyOnRead ∧ computeAddress P content ≠ address then
      (.error (.storage s!"Chunk verification failed for {hexEncode address}"),
        { s with stats.verificationFailures := s.stats.verificationFailures + 1 })
    else
      (.ok (some content),
        { s with
          stats.chunksRetrieved := s.stats.chunksRetrieved + 1
          stats.bytesRetrieved := s.stats.bytesRetrieved + content.length })

/-- The write transaction of `put`; an error drops it. -/
def putTxn : Except Error (Bool × Database) := do
  attempt (faults .task) fun e => s!"LMDB put task failed: {e}"
  attempt (faults .writeTxn) fun e => s!"Failed to create write txn: {e}"
  attempt (faults .get) fun e => s!"Failed to check existence: {e}"
  if (s.db.lookup address).isSome then
    pure (false, s.db)
  else do
    if 0 < s.config.maxChunks then do
      attempt (faults .stat) fun e => s!"Failed to read db stats: {e}"
      let current := s.db.keys.length
      if s.config.maxChunks ≤ current then
        throw (.storage s!"Storage capacity reached: {current} chunks stored, max is {s.config.maxChunks}")
    attempt (faults .put) fun e => s!"Failed to put chunk: {e}"
    attempt (faults .commit) fun e => s!"Failed to commit put: {e}"
    pure (true, s.db.insert address content)

/-- `put` before its task: what it returns at once, if it does. -/
def putBegin : Option (Except Error Bool) × LmdbStorage :=
  let computed := computeAddress P content
  if computed ≠ address then
    (some (.error (.storage s!"Content address mismatch: expected {hexEncode address}, computed {hexEncode computed}")),
      s)
  else match s.existsAt address faults with
    | .error e => (some (.error e), s)
    | .ok true => (some (.ok false), { s with stats.duplicates := s.stats.duplicates + 1 })
    | .ok false => (none, s)

/-- The task of `put` and what follows it. -/
def putTask : Except Error Bool × LmdbStorage :=
  match s.putTxn address content faults with
  | .error e => (.error e, s)
  | .ok (false, _) => (.ok false, { s with stats.duplicates := s.stats.duplicates + 1 })
  | .ok (true, db) =>
    (.ok true,
      { s with
        db := db
        stats.chunksStored := s.stats.chunksStored + 1
        stats.bytesStored := s.stats.bytesStored + content.length })

def delete : Except Error Bool × LmdbStorage :=
  match (do
    attempt (faults .task) fun e => s!"LMDB delete task failed: {e}"
    attempt (faults .writeTxn) fun e => s!"Failed to create write txn: {e}"
    attempt (faults .delete) fun e => s!"Failed to delete chunk: {e}"
    attempt (faults .commit) fun e => s!"Failed to commit delete: {e}" : Except Error Unit) with
  | .error e => (.error e, s)
  | .ok () => (.ok (s.db.lookup address).isSome, { s with db := s.db.erase address })

/-! ## What the operations do -/

variable {P s address content faults}

theorem attempt_bind_eq_ok {α : Type} {fault : Option String} {text : String → String}
    {next : Unit → Except Error α} {a : α} :
    (attempt fault text >>= next) = .ok a ↔ fault = none ∧ next () = .ok a := by
  cases fault with
  | none => exact ⟨fun h => ⟨rfl, h⟩, fun h => h.2⟩
  | some e => simp [attempt, bind_eq_ok]

/-- **What is read is what was asked for**, when it is verified. -/
theorem get_eq_ok (hverify : s.config.verifyOnRead) (h : (s.get P address faults).1 = .ok (some content)) :
    computeAddress P content = address := by
  rw [get] at h
  rcases hr : s.readTxn address faults with e | found
  · rw [hr] at h; cases h
  · rcases found with _ | c
    · rw [hr] at h; cases h
    · simp only [hr, hverify, true_and] at h
      by_cases hc : computeAddress P c = address
      · rw [if_neg (by simpa using hc)] at h
        cases h
        exact hc
      · rw [if_pos hc] at h
        cases h

theorem existsAt_eq_ok {found : Bool} : s.existsAt address faults = .ok found ↔
    faults .readTxn = none ∧ faults .get = none ∧ (s.db.lookup address).isSome = found := by
  simp only [existsAt, attempt_bind_eq_ok, pure, Except.pure, Except.ok.injEq]

/-- A transaction that writes has room for one more and finds nothing. -/
theorem putTxn_eq_ok {wasNew : Bool} {db : Database} (h : s.putTxn address content faults = .ok (wasNew, db)) :
    (wasNew = false ∧ address ∈ s.db ∧ db = s.db) ∨
    (wasNew = true ∧ address ∉ s.db ∧ db = s.db.insert address content ∧
      (0 < s.config.maxChunks → s.db.keys.length < s.config.maxChunks)) := by
  simp only [putTxn, attempt_bind_eq_ok] at h
  obtain ⟨-, -, -, h⟩ := h
  by_cases hfound : (s.db.lookup address).isSome
  · rw [if_pos hfound] at h
    cases h
    exact .inl ⟨rfl, AList.lookup_isSome.1 hfound, rfl⟩
  · have hnew : address ∉ s.db := fun hmem => hfound (AList.lookup_isSome.2 hmem)
    rw [if_neg hfound] at h
    by_cases hmax : 0 < s.config.maxChunks
    · rw [if_pos hmax] at h
      simp only [attempt_bind_eq_ok] at h
      obtain ⟨-, h⟩ := h
      by_cases hfull : s.config.maxChunks ≤ s.db.keys.length
      · rw [if_pos hfull] at h
        cases h
      · rw [if_neg hfull] at h
        simp only [bind_eq_ok] at h
        obtain ⟨_, -, -, -, h⟩ := h
        cases h
        exact .inr ⟨rfl, hnew, rfl, fun _ => by omega⟩
    · rw [if_neg hmax] at h
      simp only [bind_eq_ok] at h
      obtain ⟨_, -, -, -, h⟩ := h
      cases h
      exact .inr ⟨rfl, hnew, rfl, fun hpos => absurd hpos hmax⟩

/-- What the task of `put` does. -/
theorem putTask_cases (s : LmdbStorage) (address : XorName) (content : Bytes) (faults : Faults) :
    (∃ e, s.putTask address content faults = (.error e, s)) ∨
    (address ∈ s.db ∧ s.putTask address content faults =
      (.ok false, { s with stats.duplicates := s.stats.duplicates + 1 })) ∨
    (address ∉ s.db ∧ (0 < s.config.maxChunks → s.db.keys.length < s.config.maxChunks) ∧
      s.putTask address content faults = (.ok true,
        { s with
          db := s.db.insert address content
          stats.chunksStored := s.stats.chunksStored + 1
          stats.bytesStored := s.stats.bytesStored + content.length })) := by
  rw [putTask]
  rcases h : s.putTxn address content faults with e | ⟨wasNew, db⟩
  · exact .inl ⟨e, rfl⟩
  · rcases putTxn_eq_ok h with ⟨rfl, hmem, rfl⟩ | ⟨rfl, hnew, rfl, hroom⟩
    · exact .inr (.inl ⟨hmem, rfl⟩)
    · exact .inr (.inr ⟨hnew, hroom, rfl⟩)

/-- What `put` does before its task. -/
theorem putBegin_cases (P : Primitives) (s : LmdbStorage) (address : XorName) (content : Bytes)
    (faults : Faults) :
    (∃ e, s.putBegin P address content faults = (some (.error e), s)) ∨
    (address ∈ s.db ∧ s.putBegin P address content faults =
      (some (.ok false), { s with stats.duplicates := s.stats.duplicates + 1 })) ∨
    (address ∉ s.db ∧ s.putBegin P address content faults = (none, s)) := by
  rw [putBegin]
  by_cases hc : computeAddress P content ≠ address
  · exact .inl ⟨_, if_pos hc⟩
  · simp only [if_neg hc]
    rcases he : s.existsAt address faults with e | found
    · exact .inl ⟨e, rfl⟩
    · obtain ⟨-, -, hfound⟩ := existsAt_eq_ok.1 he
      cases found with
      | true => exact .inr (.inl ⟨AList.lookup_isSome.1 hfound, rfl⟩)
      | false =>
        refine .inr (.inr ⟨fun hmem => ?_, rfl⟩)
        rw [AList.lookup_isSome.2 hmem] at hfound
        cases hfound

/-- When `put` finds the chunk before its task. -/
theorem putBegin_found : (s.putBegin P address content faults).1 = some (.ok false) ↔
    computeAddress P content = address ∧ faults .readTxn = none ∧ faults .get = none ∧
      address ∈ s.db := by
  rw [putBegin, ← AList.lookup_isSome]
  by_cases hc : computeAddress P content = address
  · simp only [hc, ne_eq, not_true_eq_false, if_false, true_and]
    rcases he : s.existsAt address faults with e | found
    · have hne := fun h => ne_ok_of_error (a := true) ⟨e, he⟩ (existsAt_eq_ok.2 h)
      exact iff_of_false nofun fun h => hne ⟨h.1, h.2.1, h.2.2⟩
    · obtain ⟨hread, hget, hfound⟩ := existsAt_eq_ok.1 he
      cases found with
      | true => exact iff_of_true rfl ⟨hread, hget, hfound⟩
      | false => exact iff_of_false nofun fun h => by simp [hfound] at h
  · simp only [ne_eq, hc, not_false_eq_true, if_true, false_and, iff_false]
    nofun

/-- When its task finds it. -/
theorem putTask_found : (s.putTask address content faults).1 = .ok false ↔
    faults .task = none ∧ faults .writeTxn = none ∧ faults .get = none ∧ address ∈ s.db := by
  rw [putTask, ← AList.lookup_isSome]
  rcases h : s.putTxn address content faults with e | ⟨wasNew, db⟩
  · refine iff_of_false nofun ?_
    rintro ⟨htask, htxn, hget, hfound⟩
    simp only [putTxn, htask, htxn, hget, hfound, if_true] at h
    cases h
  · have hbefore := h
    simp only [putTxn, attempt_bind_eq_ok] at hbefore
    rcases putTxn_eq_ok h with ⟨rfl, hmem, rfl⟩ | ⟨rfl, hnew, rfl, -⟩
    · exact iff_of_true rfl ⟨hbefore.1, hbefore.2.1, hbefore.2.2.1, AList.lookup_isSome.2 hmem⟩
    · refine iff_of_false nofun fun hf => ?_
      exact hnew (AList.lookup_isSome.1 hf.2.2.2)

theorem get_frame (P : Primitives) (s : LmdbStorage) (address : XorName) (faults : Faults) :
    (s.get P address faults).2.db = s.db ∧
    (s.get P address faults).2.config = s.config ∧
    (s.get P address faults).2.stats.duplicates = s.stats.duplicates := by
  rw [get]
  split
  · exact ⟨rfl, rfl, rfl⟩
  · exact ⟨rfl, rfl, rfl⟩
  · split_ifs <;> exact ⟨rfl, rfl, rfl⟩

theorem delete_cases (s : LmdbStorage) (address : XorName) (faults : Faults) :
    (∃ e, s.delete address faults = (.error e, s)) ∨
    ∃ deleted, s.delete address faults = (.ok deleted, { s with db := s.db.erase address }) := by
  rw [delete]
  split
  · exact .inl ⟨_, rfl⟩
  · exact .inr ⟨_, rfl⟩

end LmdbStorage

end Autonomi.AntNode
