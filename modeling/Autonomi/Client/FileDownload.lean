/-
  Downloading a file (`file_download` of `ant-core/src/data/client/file.rs`).
-/
import Autonomi.Client.Get
import Autonomi.Lib.Disk
import Autonomi.SelfEncryption.Requests

namespace Autonomi.AntClient

open Lib AntNode

/-- What the fetches of a download meet: for each call of the callback and each place in it, the
    network and the cache, and the order in which those of one call complete. -/
structure DownloadTurn where
  net : ℕ → ℕ → Network
  cache : ℕ → ℕ → ChunkCache
  order : ℕ → Unordered ((ℕ × XorName) × Except Error (Option DataChunk))

variable (P : Primitives) (C : ClientEvm) (client : Client) (turn : DownloadTurn)

/-! ## The callback -/

def DownloadTurn.get (call place : ℕ) (name : XorName) : Except Error (Option DataChunk) :=
  (chunkGet P C client (turn.net call place) name (turn.cache call place)).1

/-- What becomes of the result of a fetch. -/
def resultOfGet (r : (ℕ × XorName) × Except Error (Option DataChunk)) :
    Except Autonomi.Error (ℕ × Bytes) :=
  match r.2 with
  | .error e => .error (.generic s!"Network fetch failed for {hexEncode r.1.2}: {e.text}")
  | .ok none => .error (.generic s!"Chunk not found: {hexEncode r.1.2}")
  | .ok (some chunk) => .ok (r.1.1, chunk.content)

/-- The fetches of a batch, as they are started. -/
def DownloadTurn.started (call : ℕ) (batch : List (ℕ × XorName)) :
    List ((ℕ × XorName) × Except Error (Option DataChunk)) :=
  batch.zipIdx.map fun r => (r.1, turn.get P C client call r.2 r.1.2)

def getBatch : Fetch := fun call batch =>
  (turn.order call (turn.started P C client call batch)).mapM resultOfGet

/-! ## The file -/

section File

variable {N : Type} [DecidableEq N] (B : ℕ) (ends : ℕ → OpEnd) (fetch : Fetch)

/-- The loop over the chunks, for so many turns. -/
def writeChunks (file : ℕ) : ℕ → DecryptionStream → ℕ → DiskAct N Error ℕ
  | 0, _, _ => ExceptT.mk fun _ => none
  | turns + 1, stream, bytesWritten =>
    match decryptionNext P B fetch stream with
    | none => ExceptT.mk fun _ => none
    | some (none, _) => pure bytesWritten
    | some (some (.error e), _) => throw (.error (.encryption s!"decryption failed: {e.text}"))
    | some (some (.ok chunkBytes), stream) => do
      Disk.writeAll ends .io file bytesWritten chunkBytes
      writeChunks file turns stream (bytesWritten + chunkBytes.length)

/-- Enough turns for every chunk, and for the end. -/
def chunkTurns (stream : DecryptionStream) : ℕ := 2 * stream.chunkInfos.length + 1

def writeResult (tmpPath : N) (stream : DecryptionStream) : DiskAct N Error ℕ := do
  let file ← Disk.create ends .io tmpPath
  let bytesWritten ← writeChunks P B ends fetch file (chunkTurns stream) stream 0
  Disk.flush ends .io
  pure bytesWritten

/-- If the temporary file cannot be removed, that is only logged. -/
def cleanUp (tmpPath : N) : DiskAct N Error Unit := do
  let _ ← Disk.attempt (Disk.remove ends Error.io tmpPath)
  pure ()

def fileDownload (dataMap : DataMap) (tmpPath output : N) : DiskAct N Error ℕ := do
  match streamingDecrypt P fetch dataMap with
  | .error e => throw (.error (.encryption s!"streaming decrypt failed: {e.text}"))
  | .ok stream => do
    match ← Disk.attempt (writeResult P B ends fetch tmpPath stream) with
    | .ok bytesWritten => do
      match ← Disk.attempt (Disk.rename ends Error.io tmpPath output) with
      | .ok () => pure bytesWritten
      | .error renameErr => do
        cleanUp ends tmpPath
        throw (.error renameErr)
    | .error e => do
      cleanUp ends tmpPath
      throw (.error e)

end File

/-! ## The chunks -/

section Chunks

variable {P C client turn} {chunks : List EncryptedChunk} {address : XorName} {chunk : DataChunk}

theorem chunkGet_authentic {net : Network} {cache : ChunkCache}
    (h : (chunkGet P C client net address cache).1 = .ok (some chunk)) :
    computeAddress P chunk.content = address := by
  have hfetch : ∀ cache, (chunkFetch P C client net address cache).1 = .ok (some chunk) →
      computeAddress P chunk.content = address := by
    intro cache h
    rcases chunkFetch_spec (P := P) C client net address cache with ⟨-, e, h'⟩ | h'
    · rw [h'] at h
      cases h
    · exact h'.authentic h
  rw [chunkGet] at h
  rcases hfind : cache.find? address with _ | cached
  · rw [cache.get_of_find?_eq_none hfind] at h
    exact hfetch _ h
  · rw [cache.get_of_find?_eq_some hfind] at h
    dsimp only at h
    split_ifs at h with hhash
    · cases h
      exact hhash
    · exact hfetch _ h

/-- What is fetched does not collide with the chunks of the file. -/
def DownloadTurn.Genuine (P : Primitives) (C : ClientEvm) (client : Client)
    (chunks : List EncryptedChunk) (turn : DownloadTurn) : Prop :=
  ∀ call place name chunk, turn.get P C client call place name = .ok (some chunk) →
    ∀ c ∈ chunks, contentHash P chunk.content = contentHash P c.content → chunk.content = c.content

/-- All chunks of a batch are fetched. -/
def DownloadTurn.Gets (P : Primitives) (C : ClientEvm) (client : Client) (turn : DownloadTurn)
    (call : ℕ) (batch : List (ℕ × XorName)) : Prop :=
  ∀ r ∈ batch.zipIdx, ∃ chunk, turn.get P C client call r.2 r.1.2 = .ok (some chunk)

theorem resultOfGet_eq_ok {r : (ℕ × XorName) × Except Error (Option DataChunk)} {p : ℕ × Bytes} :
    resultOfGet r = .ok p ↔ ∃ chunk, r.2 = .ok (some chunk) ∧ p = (r.1.1, chunk.content) := by
  obtain ⟨q, e | _ | chunk⟩ := r
  · simp [resultOfGet]
  · simp [resultOfGet]
  · simp [resultOfGet, eq_comm]

theorem getBatch_whole : (getBatch P C client turn).Whole := by
  intro call batch fetched h
  have hlen := (mapM_eq_ok.1 h).length_eq
  rw [Unordered.length_order, DownloadTurn.started, List.length_map, List.length_zipIdx] at hlen
  exact hlen.symm

theorem getBatch_ok_iff {call : ℕ} {batch : List (ℕ × XorName)} :
    (∃ fetched, getBatch P C client turn call batch = .ok fetched) ↔
      turn.Gets P C client call batch := by
  have hmem : ∀ r, r ∈ (turn.order call) (turn.started P C client call batch) ↔
      ∃ q ∈ batch.zipIdx, (q.1, turn.get P C client call q.2 q.1.2) = r := fun r => by
    rw [Unordered.mem_order, DownloadTurn.started, List.mem_map]
  constructor
  · rintro ⟨fetched, h⟩ q hq
    obtain ⟨p, hp⟩ := ok_of_mem (mapM_eq_ok.1 h) ((hmem _).2 ⟨q, hq, rfl⟩)
    obtain ⟨chunk, hchunk, -⟩ := resultOfGet_eq_ok.1 hp
    exact ⟨chunk, hchunk⟩
  · intro h
    refine mapM_isOk fun r hr => ?_
    obtain ⟨q, hq, rfl⟩ := (hmem r).1 hr
    obtain ⟨chunk, hchunk⟩ := h q hq
    exact ⟨_, resultOfGet_eq_ok.2 ⟨chunk, hchunk, rfl⟩⟩

/-- **The callback makes nothing up** for the chunks of the file. -/
theorem getBatch_sound (hturn : turn.Genuine P C client chunks) :
    ((getBatch P C client turn).only P chunks).Sound P chunks := by
  intro call batch fetched h
  unfold Fetch.only at h
  split_ifs at h with hnamed
  have hall := mapM_eq_ok.1 h
  have hperm := (turn.order call).perm (turn.started P C client call batch)
  have hof : ∀ r ∈ turn.started P C client call batch, ∀ p, resultOfGet r = .ok p →
      (p.1, contentHash P p.2) = r.1 ∧ ⟨p.2⟩ ∈ chunks := by
    intro r hr p hp
    obtain ⟨q, hq, rfl⟩ := List.mem_map.1 hr
    obtain ⟨chunk, hchunk, rfl⟩ := resultOfGet_eq_ok.1 hp
    have hhash : contentHash P chunk.content = q.1.2 := chunkGet_authentic hchunk
    obtain ⟨c, hc, hname⟩ := hnamed q.1 (List.fst_mem_of_mem_zipIdx hq)
    refine ⟨Prod.ext rfl hhash, ?_⟩
    rw [hturn call q.2 q.1.2 chunk hchunk c hc (hhash.trans hname.symm)]
    exact hc
  have hfetched : (∀ p ∈ fetched, ⟨p.2⟩ ∈ chunks) ∧
      fetched.map (fun p => (p.1, contentHash P p.2)) =
        ((turn.order call) (turn.started P C client call batch)).map Prod.fst := by
    have hsub := hperm.subset
    clear h hperm
    revert hsub hall
    generalize (turn.order call) (turn.started P C client call batch) = rs
    intro hall
    induction hall with
    | nil => exact fun _ => ⟨nofun, rfl⟩
    | @cons r p _ _ hrp _ ih =>
      intro hsub
      obtain ⟨hq, hmem⟩ := hof r (hsub List.mem_cons_self) p hrp
      obtain ⟨hrest, hmap⟩ := ih fun r hr => hsub (List.mem_cons_of_mem _ hr)
      rw [List.map_cons, List.map_cons, hmap, hq]
      exact ⟨fun p' hp' => (List.mem_cons.1 hp').elim (fun he => he ▸ hmem) (hrest p'), rfl⟩
  refine ⟨hfetched.1, ?_⟩
  rw [hfetched.2]
  have hbatch : (turn.started P C client call batch).map Prod.fst = batch := by
    rw [DownloadTurn.started, List.map_map]
    exact List.zipIdx_map_fst 0 batch
  exact ((hperm.map Prod.fst).trans (.of_eq hbatch)).subperm

end Chunks

/-! ## The disk -/

section Disk

open Act

variable {P} {N : Type} {B : ℕ} {ends : ℕ → OpEnd} {fetch : Fetch} {tmpPath output : N}
  {map : DataMap} {stream stream' : DecryptionStream} {d d' : Disk N}

/-- The other files are what they were before the download. -/
def OthersKept (tmpPath : N) (before after : Files N) : Prop :=
  ∀ n, n ≠ tmpPath → after.read n = before.read n

/-- The temporary file is open, and this has been written to it. -/
structure Written (tmpPath : N) (before : Files N) (file : ℕ) (content : Bytes) (after : Files N) :
    Prop where
  ino : after.ino tmpPath = some file
  data : after.data file = content
  others : OthersKept tmpPath before after

variable {before : Files N} {file : ℕ} {content : Bytes}

theorem Written.write {fs : Files N} (h : Written tmpPath before file content fs) (b : Bytes) :
    Written tmpPath before file (content ++ b) (fs.write file content.length b) where
  ino := h.ino
  data := by rw [Files.data_write_self, h.data, writeAt_length]
  others n hn := (Files.read_write_of_ne h.ino hn).trans (h.others n hn)

/-- The pieces that the stream yields, without an error. -/
def Yields (P : Primitives) (B : ℕ) (fetch : Fetch) (stream : DecryptionStream)
    (pieces : List Bytes) : Prop :=
  ∃ stream', Drains (decryptionNext P B fetch) stream (pieces.map .ok) stream'

/-- **The loop** writes what the stream yields, or stops with the others as they were. -/
theorem post_writeChunks (turns : ℕ) (hturns : Checked.left stream < turns) (hopens : Opens B stream)
    (hd : Written tmpPath before file content d.files) {n : ℕ} (hn : n = content.length) :
    Post (writeChunks P B ends fetch file turns stream n) d
      (fun n d' => ∃ pieces, Yields P B fetch stream pieces ∧
        n = (content ++ pieces.flatten).length ∧
        Written tmpPath before file (content ++ pieces.flatten) d'.files ∧
        Disk.Done ends d d' ∧ d'.ops = d.ops + pieces.length)
      (fun _ d' => OthersKept tmpPath before d'.files) := by
  induction turns generalizing stream content d n with
  | zero => exact absurd hturns (Nat.not_lt_zero _)
  | succ turns ih =>
    obtain ⟨r, stream', hr, hopens', -, hleft⟩ := hopens.next P fetch
    rw [writeChunks, hr]
    rcases r with _ | e | chunk
    · refine post_pure ⟨[], ⟨stream', _, .nil, hr⟩, ?_⟩
      rw [List.flatten_nil, List.append_nil]
      exact ⟨hn, hd, .refl d, rfl⟩
    · exact .inr ⟨_, d, rfl, hd.others⟩
    · refine post_bind (Disk.post_op (fun hdone => ?_) (fun e k _ => ?_) fun k => ?_)
      · have hlen : n + chunk.length = (content ++ chunk).length := by simp [hn]
        refine (ih (by have := hleft chunk rfl; omega) hopens' (hn ▸ hd.write chunk) hlen).mono ?_
        rintro n d' ⟨pieces, ⟨stream'', s₁, hp, hend⟩, hn, hw, hdone', hops⟩
        refine ⟨chunk :: pieces, ⟨stream'', s₁, .cons hr hp, hend⟩, ?_⟩
        rw [List.flatten_cons, ← List.append_assoc]
        refine ⟨hn, hw, (Disk.Done.succ hdone).trans hdone', ?_⟩
        rw [hops, List.length_cons]
        simp only
        omega
      · exact hn ▸ (hd.write (chunk.take k)).others
      · exact hn ▸ (hd.write (chunk.take k)).others

/-- Without a fault all pieces are written. -/
theorem writeChunks_done (turns : ℕ) (hturns : Checked.left stream < turns) (hopens : Opens B stream)
    {pieces : List Bytes} (h : Yields P B fetch stream pieces) (n : ℕ)
    (hends : ∀ k < pieces.length, ends (d.ops + k) = .done) :
    ∃ n' d', writeChunks P B ends fetch file turns stream n d = some (.ok n', d') ∧
      d'.ops = d.ops + pieces.length := by
  induction turns generalizing stream d n pieces with
  | zero => exact absurd hturns (Nat.not_lt_zero _)
  | succ turns ih =>
    obtain ⟨r, stream', hr, hopens', -, hleft⟩ := hopens.next P fetch
    obtain ⟨stream'', s₁, hp, hend⟩ := h
    rw [writeChunks]
    cases pieces with
    | nil =>
      cases hp
      rw [hend]
      exact ⟨n, d, rfl, rfl⟩
    | cons chunk pieces =>
      cases hp with
      | cons hn hp =>
        obtain ⟨rfl, rfl⟩ := Prod.mk.inj (Option.some.inj (hr.symm.trans hn))
        rw [hr]
        have hwrite : Disk.writeAll ends Error.io file n chunk d =
            some (.ok (), ⟨d.files.write file n chunk, d.ops + 1⟩) := Disk.op_done (hends 0 (by simp))
        obtain ⟨n', d', hrun, hops⟩ := ih (d := ⟨d.files.write file n chunk, d.ops + 1⟩)
          (by have := hleft chunk rfl; omega) hopens' ⟨stream'', s₁, hp, hend⟩ (n + chunk.length)
          fun k hk => by
            have := hends (k + 1) (by simpa using hk)
            rwa [show d.ops + 1 + k = d.ops + (k + 1) by omega]
        refine ⟨n', d', (Act.bind_of_ok hwrite).trans hrun, ?_⟩
        rw [hops, List.length_cons]
        simp only
        omega

theorem left_of_streamingDecrypt (h : streamingDecrypt P fetch map = .ok stream) :
    Checked.left stream = 2 * stream.chunkInfos.length := by
  unfold streamingDecrypt DecryptionStream.new at h
  split_ifs at h
  · obtain ⟨r, -, h⟩ := bind_eq_ok.1 h
    obtain rfl := Except.ok.inj h
    rfl
  · obtain rfl := Except.ok.inj h
    rfl

variable [DecidableEq N]

theorem written_create {fs : Files N} :
    Written tmpPath fs (fs.create tmpPath).2 [] (fs.create tmpPath).1 where
  ino := Files.ino_create_self
  data := Files.data_create_self
  others _ hn := Files.read_create_of_ne hn

theorem post_writeResult (h : streamingDecrypt P fetch map = .ok stream) :
    Post (writeResult P B ends fetch tmpPath stream) d
      (fun n d' => ∃ pieces file, Yields P B fetch stream pieces ∧ n = pieces.flatten.length ∧
        Written tmpPath d.files file pieces.flatten d'.files ∧
        Disk.Done ends d d' ∧ d'.ops = d.ops + pieces.length + 2)
      (fun _ d' => OthersKept tmpPath d.files d'.files) := by
  have hcreate : Written tmpPath d.files (d.files.create tmpPath).2 [] (d.files.create tmpPath).1 :=
    written_create
  refine post_bind (Disk.post_create (fun hdone => ?_) (fun _ _ _ _ _ => rfl)
    ⟨fun _ _ => rfl, hcreate.others⟩)
  have hturns : Checked.left stream < chunkTurns stream := by
    rw [left_of_streamingDecrypt h, chunkTurns]
    omega
  have hempty : 0 = ([] : Bytes).length := rfl
  refine post_bind ((post_writeChunks (chunkTurns stream) hturns (opens_of_streamingDecrypt h)
    hcreate hempty).mono ?_)
  rintro n d' ⟨pieces, hyields, hn, hw, hdone', hops⟩
  rw [List.nil_append] at hn hw
  refine post_bind (Disk.post_atomic (fun hflush => ?_) (fun _ _ _ => hw.others)
    ⟨hw.others, hw.others⟩)
  refine post_pure ⟨pieces, _, hyields, hn, hw, ?_, ?_⟩
  · exact (Disk.Done.succ hdone).trans (hdone'.trans (Disk.Done.succ hflush))
  · simp only [hops]
    omega

theorem post_cleanUp : Post (cleanUp ends tmpPath) d
    (fun _ d' => OthersKept tmpPath d.files d'.files ∧ d'.ops = d.ops + 1 ∧
      (ends d.ops = .done → d'.files.ino tmpPath = none))
    (fun stop d' => stop = .died ∧ OthersKept tmpPath d.files d'.files) := by
  have hremove : OthersKept tmpPath d.files (d.files.remove tmpPath) :=
    fun _ hn => Files.read_remove_of_ne hn
  refine post_bind (Disk.post_attempt (Disk.post_atomic (fun _ => ?_) (fun e k hend => ?_) ?_))
  · exact post_pure ⟨hremove, rfl, fun _ => Files.ino_remove_self⟩
  · refine ⟨fun _ _ => post_pure ⟨fun _ _ => rfl, rfl, fun h => ?_⟩, nofun⟩
    rw [hend] at h
    cases h
  · exact ⟨⟨nofun, fun _ => ⟨rfl, fun _ _ => rfl⟩⟩, nofun, fun _ => ⟨rfl, hremove⟩⟩

/-- What the data map is read as. -/
def Reads (P : Primitives) (B : ℕ) (fetch : Fetch) (map : DataMap) (pieces : List Bytes) : Prop :=
  ∃ stream, streamingDecrypt P fetch map = .ok stream ∧ Yields P B fetch stream pieces

/-- **A download** replaces the file at once with all that is read, or leaves it. -/
theorem post_fileDownload (hne : tmpPath ≠ output) :
    Post (fileDownload P B ends fetch map tmpPath output) d
      (fun n d' => ∃ pieces, Reads P B fetch map pieces ∧ n = pieces.flatten.length ∧
        d'.files.read output = some pieces.flatten ∧ d'.files.ino tmpPath = none ∧
        (∀ m, m ≠ tmpPath → m ≠ output → d'.files.read m = d.files.read m) ∧
        Disk.Done ends d d' ∧ d'.ops = d.ops + pieces.length + 3)
      (fun stop d' => (∀ m, m ≠ tmpPath → m ≠ output → d'.files.read m = d.files.read m) ∧
        (d'.files.read output = d.files.read output ∨ stop = .died ∧
          ∃ pieces, Reads P B fetch map pieces ∧ d'.files.read output = some pieces.flatten) ∧
        ∀ e, stop = .error e → d' = d ∨ d'.files.ino tmpPath = none ∨ ends (d'.ops - 1) ≠ .done) := by
  unfold fileDownload
  cases hstream : streamingDecrypt P fetch map with
  | error e => exact .inr ⟨_, d, rfl, fun _ _ _ => rfl, .inl rfl, fun _ _ => .inl rfl⟩
  | ok stream =>
    -- a failed download is cleaned up
    have hclean : ∀ (d' : Disk N) (e : Error), OthersKept tmpPath d.files d'.files →
        Post (cleanUp ends tmpPath >>= fun _ => throw (.error e) : DiskAct N Error ℕ) d'
          (fun _ _ => False)
          (fun stop d'' => OthersKept tmpPath d.files d''.files ∧
            ∀ e, stop = .error e → d''.files.ino tmpPath = none ∨ ends (d''.ops - 1) ≠ .done) := by
      intro d' e hd'
      have hcleaned : Post (cleanUp ends tmpPath) d' _ _ := post_cleanUp
      refine post_bind ?_
      rcases hcleaned with
        ⟨u, d'', hx, hothers, hops, hino⟩ | ⟨stop, d'', hx, rfl, hothers⟩
      · refine .inl ⟨u, d'', hx, .inr ⟨_, d'', rfl, fun m hm => ?_, fun _ _ => ?_⟩⟩
        · exact (hothers m hm).trans (hd' m hm)
        · rw [hops, Nat.add_sub_cancel]
          by_cases h : ends d'.ops = .done
          · exact .inl (hino h)
          · exact .inr h
      · exact .inr ⟨_, d'', hx, fun m hm => (hothers m hm).trans (hd' m hm), nofun⟩
    have hstopped : ∀ {stop : Stop Error} {d' : Disk N}, OthersKept tmpPath d.files d'.files ∧
        (∀ e, stop = .error e → d'.files.ino tmpPath = none ∨ ends (d'.ops - 1) ≠ .done) →
        (∀ m, m ≠ tmpPath → m ≠ output → d'.files.read m = d.files.read m) ∧
        (d'.files.read output = d.files.read output ∨ stop = .died ∧
          ∃ pieces, Reads P B fetch map pieces ∧ d'.files.read output = some pieces.flatten) ∧
        ∀ e, stop = .error e → d' = d ∨ d'.files.ino tmpPath = none ∨ ends (d'.ops - 1) ≠ .done :=
      fun h => ⟨fun m hm _ => h.1 m hm, .inl (h.1 _ hne.symm), fun e he => .inr (h.2 e he)⟩
    refine post_bind (Disk.post_attempt ?_)
    have hwritten : Post (writeResult P B ends fetch tmpPath stream) d _ _ :=
      post_writeResult hstream
    rcases hwritten with
      ⟨n, d', hx, pieces, file, hyields, hn, hw, hdone, hops⟩ | ⟨stop, d', hx, hothers⟩
    · refine .inl ⟨n, d', hx, ?_⟩
      -- the new file is there under its own name
      have hread : (d'.files.rename tmpPath output).read output = some pieces.flatten := by
        rw [Files.read_rename, Files.read_eq_of hw.ino, hw.data]
      have hrename : ∀ m, m ≠ tmpPath → m ≠ output →
          (d'.files.rename tmpPath output).read m = d.files.read m := fun m hm hm' =>
        (Files.read_rename_of_ne hm hm').trans (hw.others m hm)
      refine post_bind (Disk.post_attempt (Disk.post_atomic (fun hend => ?_) (fun e k _ => ?_) ?_))
      · refine post_pure ⟨pieces, ⟨stream, hstream, hyields⟩, hn, hread, Files.ino_rename_self hne, hrename,
          hdone.trans (Disk.Done.succ hend), ?_⟩
        simp only [hops]
      · refine ⟨fun e' _ => ?_, nofun⟩
        rcases hclean ⟨d'.files, d'.ops + 1⟩ e' hw.others with ⟨n, _, _, hfalse⟩ | hstop
        · exact hfalse.elim
        · exact .inr (hstop.imp fun stop h => h.imp fun d'' h => ⟨h.1, hstopped h.2⟩)
      · refine ⟨⟨nofun, fun _ => ⟨fun m hm _ => hw.others m hm, .inl (hw.others _ hne.symm), nofun⟩⟩,
          nofun, fun _ => ⟨hrename, .inr ⟨rfl, pieces, ⟨stream, hstream, hyields⟩, hread⟩, nofun⟩⟩
    · refine .inr ⟨stop, d', hx, fun e he => ?_, ?_⟩
      · rcases hclean _ e hothers with ⟨n, _, _, hfalse⟩ | hstop
        · exact hfalse.elim
        · exact .inr (hstop.imp fun stop h => h.imp fun d'' h => ⟨h.1, hstopped h.2⟩)
      · rintro rfl
        exact hstopped ⟨hothers, nofun⟩

theorem fileDownload_done {pieces : List Bytes} (h : Reads P B fetch map pieces)
    (hends : ∀ k < pieces.length + 3, ends (d.ops + k) = .done) :
    ∃ n d', fileDownload P B ends fetch map tmpPath output d = some (.ok n, d') := by
  obtain ⟨stream, hstream, hyields⟩ := h
  have hturns : Checked.left stream < chunkTurns stream := by
    rw [left_of_streamingDecrypt hstream, chunkTurns]
    omega
  have hcreate : Disk.create ends Error.io tmpPath d =
      some (.ok (d.files.create tmpPath).2, ⟨(d.files.create tmpPath).1, d.ops + 1⟩) :=
    (Act.bind_of_ok (Disk.atomic_done (hends 0 (by omega)))).trans rfl
  obtain ⟨n, d₁, hloop, hops⟩ := writeChunks_done (d := ⟨(d.files.create tmpPath).1, d.ops + 1⟩)
    (chunkTurns stream) hturns (opens_of_streamingDecrypt hstream) hyields 0 fun k hk => by
      have := hends (k + 1) (by omega)
      rwa [show d.ops + 1 + k = d.ops + (k + 1) by omega]
  have hops₁ : d₁.ops = d.ops + (pieces.length + 1) := hops.trans (by simp only; omega)
  have hflush : Disk.flush ends Error.io d₁ = some (.ok (), ⟨d₁.files, d₁.ops + 1⟩) :=
    Disk.atomic_done (by rw [hops₁]; exact hends _ (by omega))
  have hresult : writeResult P B ends fetch tmpPath stream d =
      some (.ok n, ⟨d₁.files, d₁.ops + 1⟩) := by
    rw [writeResult, Act.bind_of_ok hcreate, Act.bind_of_ok hloop, Act.bind_of_ok hflush]
    rfl
  have hrename : Disk.rename ends Error.io tmpPath output ⟨d₁.files, d₁.ops + 1⟩ =
      some (.ok (), ⟨d₁.files.rename tmpPath output, d₁.ops + 1 + 1⟩) :=
    Disk.atomic_done (by
      show ends (d₁.ops + 1) = .done
      rw [hops₁]
      exact hends (pieces.length + 2) (by omega))
  refine ⟨n, ⟨d₁.files.rename tmpPath output, d₁.ops + 1 + 1⟩, ?_⟩
  rw [fileDownload, hstream]
  refine (Act.bind_of_ok (Disk.attempt_ok hresult)).trans ?_
  exact (Act.bind_of_ok (Disk.attempt_ok hrename)).trans rfl

end Disk

/-! ## A file and its map -/

section Map

variable {P C client turn} {N : Type} [DecidableEq N] {m fuel B : ℕ} {ends : ℕ → OpEnd}
  {tmpPath output : N} {data : Bytes} {map : DataMap} {chunks : List EncryptedChunk} {d : Disk N}

/-- Every chunk that the download needs is fetched, of a tagged map those of the map first. -/
def DownloadTurn.Serves (P : Primitives) (C : ClientEvm) (client : Client) (turn : DownloadTurn)
    (m B : ℕ) (map : DataMap) (data : Bytes) : Prop :=
  (map.isChild → turn.Gets P C client 0 (map.infos.map ChunkInfo.request)) ∧
    ∀ j, j * B < getNumChunks m data.length →
      turn.Gets P C client (firstCall map + j) (batchRequests P m B data j)

/-- What is read is the file. -/
theorem reads_getBatch_iff (hP : P.Ideal) (hd : data.length ≤ isizeMax)
    (henc : encrypt P m fuel data = some (.ok (map, chunks))) (hcf : CollisionFree P chunks)
    (hturn : turn.Genuine P C client chunks) (hB : 1 ≤ B) {pieces : List Bytes} :
    Reads P B (getBatch P C client turn) map pieces ↔
      OneLevel m data.length ∧ turn.Serves P C client m B map data ∧
        pieces = (List.range (getNumChunks m data.length)).map (chunkAt m data) := by
  refine ((encrypts_of_eq_ok henc).reads_iff hP hd hcf (getBatch_sound hturn) getBatch_whole hB).trans ?_
  simp only [getBatch_ok_iff, DownloadTurn.Serves, and_assoc]

theorem flatten_of_encrypt (henc : encrypt P m fuel data = some (.ok (map, chunks))) :
    ((List.range (getNumChunks m data.length)).map (chunkAt m data)).flatten = data :=
  (encrypts_of_eq_ok henc).sealed.flatten_chunkAt

/-- A download that nothing disturbs. -/
theorem fileDownload_undisturbed (hP : P.Ideal) (hd : data.length ≤ isizeMax)
    (henc : encrypt P m fuel data = some (.ok (map, chunks))) (hcf : CollisionFree P chunks)
    (hturn : turn.Genuine P C client chunks) (hB : 1 ≤ B) (hne : tmpPath ≠ output) (d : Disk N)
    (h1 : OneLevel m data.length) (hserves : turn.Serves P C client m B map data)
    (hends : ∀ k < getNumChunks m data.length + 3, ends (d.ops + k) = .done) :
    ∃ d', fileDownload P B ends (getBatch P C client turn) map tmpPath output d =
      some (.ok data.length, d') ∧ d'.files.read output = some data := by
  have hreads := (reads_getBatch_iff hP hd henc hcf hturn hB).2 ⟨h1, hserves, rfl⟩
  obtain ⟨n, d', hrun⟩ : ∃ n d', fileDownload P B ends (getBatch P C client turn) map tmpPath output d =
      some (.ok n, d') :=
    fileDownload_done hreads (by rwa [List.length_map, List.length_range])
  rcases post_fileDownload (B := B) (d := d) hne with
    ⟨n', d'', hx, pieces, hpieces, rfl, hout, -⟩ | ⟨stop, d'', hx, -⟩
  · obtain ⟨he, rfl⟩ := Prod.mk.inj (Option.some.inj (hrun.symm.trans hx))
    obtain rfl := Except.ok.inj he
    obtain ⟨-, -, rfl⟩ := (reads_getBatch_iff hP hd henc hcf hturn hB).1 hpieces
    rw [flatten_of_encrypt henc] at hrun hout
    exact ⟨d', hrun, hout⟩
  · cases hrun.symm.trans hx

/-- **A download is atomic**, whatever the network, the caches and the disk do: the output becomes
    the file as it was encrypted, or stays as it was, also if the program dies.  No other file is
    touched, and a failed download leaves no temporary one that can be removed. -/
theorem fileDownload_atomic (hP : P.Ideal) (hd : data.length ≤ isizeMax)
    (henc : encrypt P m fuel data = some (.ok (map, chunks))) (hcf : CollisionFree P chunks)
    (hturn : turn.Genuine P C client chunks) (hB : 1 ≤ B) (hne : tmpPath ≠ output) (d : Disk N) :
    ∃ r d', fileDownload P B ends (getBatch P C client turn) map tmpPath output d = some (r, d') ∧
      (∀ n, n ≠ tmpPath → n ≠ output → d'.files.read n = d.files.read n) ∧
      (∀ n, r = .ok n → n = data.length ∧ d'.files.read output = some data ∧
        d'.files.ino tmpPath = none) ∧
      (∀ e, r = .error (.error e) → d'.files.read output = d.files.read output ∧
        (d' = d ∨ d'.files.ino tmpPath = none ∨ ends (d'.ops - 1) ≠ .done)) ∧
      (r = .error .died →
        d'.files.read output = d.files.read output ∨ d'.files.read output = some data) := by
  have hread : ∀ pieces, Reads P B (getBatch P C client turn) map pieces → pieces.flatten = data := by
    intro pieces h
    rw [((reads_getBatch_iff hP hd henc hcf hturn hB).1 h).2.2, flatten_of_encrypt henc]
  rcases post_fileDownload (B := B) (d := d) hne with
    ⟨n, d', hx, pieces, hpieces, rfl, hout, htmp, hothers, -⟩ | ⟨stop, d', hx, hothers, hout, herror⟩
  · refine ⟨_, d', hx, hothers, ?_, nofun, nofun⟩
    rintro n ⟨⟩
    rw [hout, hread pieces hpieces]
    exact ⟨rfl, rfl, htmp⟩
  · refine ⟨_, d', hx, hothers, nofun, ?_, ?_⟩
    · rintro e ⟨⟩
      refine ⟨hout.resolve_right fun h => ?_, herror e rfl⟩
      cases h.1
    · rintro ⟨⟩
      refine hout.imp_right ?_
      rintro ⟨-, pieces, hpieces, hout⟩
      rw [hout, hread pieces hpieces]

/-- **Which downloads succeed**: exactly those of a file of at most one level whose chunks are all
    fetched, when no operation on the disk fails. -/
theorem fileDownload_ok_iff (hP : P.Ideal) (hd : data.length ≤ isizeMax)
    (henc : encrypt P m fuel data = some (.ok (map, chunks))) (hcf : CollisionFree P chunks)
    (hturn : turn.Genuine P C client chunks) (hB : 1 ≤ B) (hne : tmpPath ≠ output) (d : Disk N) :
    (∃ n d', fileDownload P B ends (getBatch P C client turn) map tmpPath output d =
        some (.ok n, d')) ↔
      OneLevel m data.length ∧ turn.Serves P C client m B map data ∧
        ∀ k < getNumChunks m data.length + 3, ends (d.ops + k) = .done := by
  have hlen : ((List.range (getNumChunks m data.length)).map (chunkAt m data)).length =
      getNumChunks m data.length := by simp
  constructor
  · rintro ⟨n, d', hrun⟩
    rcases post_fileDownload (B := B) (d := d) hne with
      ⟨n, d', hx, pieces, hpieces, -, -, -, -, hdone, hops⟩ | ⟨stop, d', hx, -⟩
    · obtain ⟨h1, hserves, rfl⟩ := (reads_getBatch_iff hP hd henc hcf hturn hB).1 hpieces
      rw [hlen] at hops
      exact ⟨h1, hserves, fun k hk => hdone.2 _ (Nat.le_add_right _ _) (by omega)⟩
    · cases hrun.symm.trans hx
  · rintro ⟨h1, hserves, hends⟩
    obtain ⟨d', hrun, -⟩ :=
      fileDownload_undisturbed hP hd henc hcf hturn hB hne d h1 hserves hends
    exact ⟨data.length, d', hrun⟩

end Map

/-! ## From a cache -/

section Example

def offline : Network where
  p2p := ⟨fun _ _ => .error "offline", 0, fun _ _ _ => .error "offline", fun _ => []⟩
  peerId := examplePeer 9
  requestIds _ := 0

def cacheOf (P : Primitives) (chunks : List EncryptedChunk) (cache : ChunkCache) : ChunkCache :=
  chunks.foldl (fun cache c => cache.put (contentHash P c.content) c.content) cache

/-- The chunks are in the cache, and there is no network. -/
def cachedTurn (P : Primitives) (chunks : List EncryptedChunk) : DownloadTurn :=
  ⟨fun _ _ => offline, fun _ _ => cacheOf P chunks .default, fun _ => .lastFirst⟩

theorem mem_cacheOf {P : Primitives} {chunks : List EncryptedChunk} {cache : ChunkCache}
    {e : XorName × Bytes} (h : e ∈ (cacheOf P chunks cache).entries) :
    e ∈ cache.entries ∨ ⟨e.2⟩ ∈ chunks := by
  induction chunks generalizing cache with
  | nil => exact .inl h
  | cons c chunks ih =>
    rcases ih h with h | h
    · rcases cache.mem_put h with rfl | ⟨h, -⟩
      · exact .inr List.mem_cons_self
      · exact .inl h
    · exact .inr (List.mem_cons_of_mem _ h)

theorem genuine_cachedTurn {P : Primitives} {chunks : List EncryptedChunk} (C : ClientEvm)
    (client : Client) (hcf : CollisionFree P chunks) :
    (cachedTurn P chunks).Genuine P C client chunks := by
  intro call place name chunk hget c hc hhash
  have hmem : ⟨chunk.content⟩ ∈ chunks := by
    have hoffline : ∀ cache, (chunkFetch P C client offline name cache).1 ≠ .ok (some chunk) := by
      rintro cache ⟨⟩
    change (chunkGet P C client offline name (cacheOf P chunks .default)).1 = _ at hget
    rw [chunkGet] at hget
    rcases hfind : (cacheOf P chunks .default).find? name with _ | cached
    · rw [(cacheOf P chunks .default).get_of_find?_eq_none hfind] at hget
      exact absurd hget (hoffline _)
    · rw [(cacheOf P chunks .default).get_of_find?_eq_some hfind] at hget
      dsimp only at hget
      split_ifs at hget
      · cases hget
        obtain ⟨e, he, rfl⟩ := Option.map_eq_some_iff.1 hfind
        exact (mem_cacheOf (List.mem_of_find?_eq_some he)).resolve_left List.not_mem_nil
      · exact absurd hget (hoffline _)
  exact EncryptedChunk.mk.inj (hcf _ hmem c hc hhash)

/-- There is an output before, and no temporary file. -/
def exampleDisk : Disk Bool := ⟨.single true [1, 2, 3], 0⟩

/-- The program dies when the last chunk has been written in part. -/
theorem fileDownload_atomic_dies : ∃ map chunks d',
    encrypt clear 110 1 (List.replicate 300 7) = some (.ok (map, chunks)) ∧
    fileDownload clear 10 (fun k => if k = 3 then .died 50 else .done)
      (getBatch clear exampleClientEvm exampleClient (cachedTurn clear chunks)) map false true
      exampleDisk = some (.error .died, d') ∧
    (d'.files.read true = exampleDisk.files.read true ∨
      d'.files.read true = some (List.replicate 300 7)) := by
  obtain ⟨⟨map, chunks⟩, henc, hrun⟩ := Run.of_okWith
    (x := encrypt clear 110 1 (List.replicate 300 7))
    (p := fun r : DataMap × List EncryptedChunk => decide (CollisionFree clear r.2 ∧
      ∃ result ∈ fileDownload clear 10 (fun k => if k = 3 then .died 50 else .done)
        (getBatch clear exampleClientEvm exampleClient (cachedTurn clear r.2)) r.1 false true
        exampleDisk, result.1 = .error .died)) (by decide +kernel)
  obtain ⟨hcf, ⟨r, d'⟩, hresult, rfl⟩ := of_decide_eq_true hrun
  obtain ⟨r', d'', hrun, -, -, -, hdied⟩ := fileDownload_atomic clear_ideal
    (by rw [List.length_replicate]; decide) henc hcf
    (genuine_cachedTurn exampleClientEvm exampleClient hcf) (show 1 ≤ 10 by decide)
    (show false ≠ true by decide) exampleDisk
  obtain ⟨rfl, rfl⟩ := Prod.mk.inj (Option.some.inj (hresult.symm.trans hrun))
  exact ⟨map, chunks, d', henc, hresult, hdied rfl⟩

/-- The chunks come in one batch, the last one first. -/
theorem fileDownload_ok_cached : ∃ map chunks n d',
    encrypt clear 110 1 (List.replicate 300 7) = some (.ok (map, chunks)) ∧
    fileDownload clear 10 (fun _ => .done)
      (getBatch clear exampleClientEvm exampleClient (cachedTurn clear chunks)) map false true
      exampleDisk = some (.ok n, d') ∧ OneLevel 110 300 := by
  obtain ⟨⟨map, chunks⟩, henc, hrun⟩ := Run.of_okWith
    (x := encrypt clear 110 1 (List.replicate 300 7))
    (p := fun r => decide (CollisionFree clear r.2) && (fileDownload clear 10 (fun _ => .done)
      (getBatch clear exampleClientEvm exampleClient (cachedTurn clear r.2)) r.1 false true
      exampleDisk).any fun result => result.1.toOption.isSome) (by decide +kernel)
  rw [Bool.and_eq_true, decide_eq_true_iff, Option.any_eq_true] at hrun
  obtain ⟨hcf, ⟨r, d'⟩, hresult, hok⟩ := hrun
  cases r with
  | error e => cases hok
  | ok n =>
    have hone := ((fileDownload_ok_iff clear_ideal (by rw [List.length_replicate]; decide) henc hcf
      (genuine_cachedTurn exampleClientEvm exampleClient hcf) (show 1 ≤ 10 by decide)
      (show false ≠ true by decide) exampleDisk).1 ⟨n, d', hresult⟩).1
    rw [List.length_replicate] at hone
    exact ⟨map, chunks, n, d', henc, hresult, hone⟩

end Example

end Autonomi.AntClient
