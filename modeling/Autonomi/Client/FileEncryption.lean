/-
  Encrypting a file as it is read (`spawn_file_encryption` and `encrypt_file_to_spill` of
  `ant-core/src/data/client/file.rs`), and a file that is downloaded again.
-/
import Autonomi.Client.FileDownload
import Autonomi.Client.Modes
import Autonomi.SelfEncryption.StreamLength

namespace Autonomi.AntClient

open Lib AntNode EncryptionStream

/-- What reading the file comes to: the pieces, and the error that ends them, if it is one. -/
structure FileReads where
  pieces : List Bytes
  readError : Option String

variable (P : Primitives) (m fuel : ℕ)

/-- The error that has been met: the stream takes it for the end of the file. -/
def FileReads.captured (reads : FileReads) (stream : EncryptionStream) : Option String :=
  if stream.inputComplete then reads.readError else none

/-- The loop over the chunks, for so many turns.  The receiver of the chunks is kept until the
    end: its only owner drops it early when a chunk cannot be spilled, and then returns that
    error, not the one that the loop ends with. -/
def sendChunks (reads : FileReads) : ℕ → EncryptionStream → Option FileEncryption
  | 0, _ => none
  | turns + 1, stream =>
    match chunksNext P m fuel stream with
    | none => none
    | some (none, stream) => some ⟨[],
      match reads.captured stream with
      | some e => .error (.io e)
      | none => okOr (.encryption "no DataMap after encryption") stream.datamap⟩
    | some (some chunkResult, stream) =>
      match reads.captured stream with
      | some e => some ⟨[], .error (.io e)⟩
      | none =>
        match chunkResult with
        | .error e => some ⟨[], .error (.encryption s!"chunk encryption failed: {e.text}")⟩
        | .ok (_, content) => (sendChunks reads turns stream).map fun encryption =>
          ⟨content :: encryption.chunks, encryption.result⟩

def spawnFileEncryption (dataSize : ℕ) (reads : FileReads) (turns : ℕ) : Option FileEncryption :=
  match streamEncrypt m dataSize reads.pieces with
  | .error e => some ⟨[], .error (.encryption s!"stream_encrypt failed: {e.text}")⟩
  | .ok stream => sendChunks P m fuel reads turns stream

/-! ## The end of the input -/

section Keeps

variable {P m fuel} {I : EncryptionStream → Prop} {s : EncryptionStream}

/-- `I` depends only on the data map and on whether the input has ended. -/
def AtEnd (I : EncryptionStream → Prop) : Prop :=
  ∀ s s' : EncryptionStream, s'.finalDatamap = s.finalDatamap → s'.inputComplete = s.inputComplete →
    I s → I s'

open Act

theorem AtEnd.streamEncryptChunk (hI : AtEnd I) (hashes : List XorName) (i : ℕ) (b : Bytes) :
    Keeps I (streamEncryptChunk P hashes i b) := fun _ hs =>
  holds_bind (holds_ofExcept (fun _ _ => hs) fun _ _ => hs) fun _ s hs =>
    holds_modify_bind (holds_pure (hI s _ rfl rfl hs))

theorem AtEnd.recordChunk (hI : AtEnd I) (i : ℕ) (b : Bytes) : Keeps I (recordChunk P i b) := by
  refine fun s hs => holds_get ?_
  dsimp only
  split_ifs
  · exact holds_throw hs
  · exact holds_set_bind (holds_throw (hI s _ rfl rfl hs))
  · exact holds_set_bind (holds_modify (hI s _ rfl rfl hs))

theorem AtEnd.processChunkData (hI : AtEnd I) (start i : ℕ) (b : Bytes) :
    Keeps I (processChunkData P start i b) := by
  refine fun s hs => holds_bind (hI.recordChunk i b s hs) fun _ s hs => holds_get ?_
  split_ifs
  · refine holds_bind (holds_get ?_) fun _ s hs => holds_modify_bind (holds_pure (hI s _ rfl rfl hs))
    split_ifs
    · exact holds_throw hs
    · exact holds_set (hI s _ rfl rfl hs)
  · exact holds_bind (hI.streamEncryptChunk _ i b s hs) fun _ s hs =>
      holds_modify_bind (holds_pure (hI s _ rfl rfl hs))
  · exact holds_modify_bind (holds_pure (hI s _ rfl rfl hs))

theorem AtEnd.processLoop (hI : AtEnd I) (turns : ℕ) : Keeps I (processLoop P m turns) := by
  have hturn : Keeps I (processTurn P m) := by
    refine fun s hs => holds_get ?_
    dsimp only
    split_ifs <;> first | exact holds_pure hs | exact hI.processChunkData _ _ _ s hs
  induction turns with
  | zero => exact fun s hs => holds_pure hs
  | succ turns ih =>
    refine fun s hs => holds_get ?_
    split_ifs
    · refine holds_bind (hturn s hs) fun turn s hs => ?_
      cases turn with
      | next => exact ih s hs
      | stop => exact holds_pure hs
      | yield chunk => exact holds_pure hs
    · exact holds_pure hs

theorem AtEnd.encryptDeferred (hI : AtEnd I) (hashes : List XorName) (i : ℕ) :
    Keeps I (encryptDeferred P hashes i) := by
  refine fun s hs => holds_get ?_
  cases s.deferredChunks[i]?.join with
  | none => exact holds_pure hs
  | some b =>
    refine holds_set_bind (holds_bind ?_ fun _ s hs => holds_pure hs)
    exact hI.streamEncryptChunk hashes i b _ (hI s _ rfl rfl hs)

/-- There is no data map before the end of the input. -/
def MapAtEnd (s : EncryptionStream) : Prop := s.finalDatamap ≠ none → s.inputComplete = true

theorem atEnd_mapAtEnd : AtEnd MapAtEnd := fun s s' hmap hin hs h => by
  rw [hmap] at h
  rw [hin, hs h]

/-- The data map that a call returns is that of the stream. -/
def NextYields (r : Option ChunkOrDataMap) (s : EncryptionStream) : Prop :=
  MapAtEnd s ∧ ∀ map, r = some (.dataMap map) → s.finalDatamap ≠ none

theorem nextYields_none (h : MapAtEnd s) : NextYields none s := ⟨h, nofun⟩

theorem nextYields_chunk {chunk : EncryptedChunk} (h : MapAtEnd s) :
    NextYields (some (.chunk chunk)) s := ⟨h, nofun⟩

theorem holds_finalizeEncryption (hs : s.inputComplete = true) :
    Holds (finalizeEncryption P m fuel) s NextYields fun _ => MapAtEnd := by
  have hI : AtEnd fun s => s.inputComplete = true := fun _ _ _ h hs => h.trans hs
  have hend : ∀ {s : EncryptionStream}, s.inputComplete = true → MapAtEnd s := fun hs _ => hs
  have hdeferred : ∀ hashes i (s : EncryptionStream), s.inputComplete = true →
      Holds (encryptDeferred P hashes i) s (fun _ s => s.inputComplete = true) fun _ => MapAtEnd :=
    fun hashes i s hs => (hI.encryptDeferred hashes i s hs).mono (fun _ _ hs => hs) fun _ _ => hend
  have hpure : ∀ {α : Type} (y : Except Autonomi.Error α) (s : EncryptionStream),
      s.inputComplete = true →
      Holds (ofExcept y) s (fun _ s => s.inputComplete = true) fun _ => MapAtEnd :=
    fun y s hs => holds_ofExcept (fun _ _ => hs) fun _ _ => hend hs
  have hshrink : ∀ {α : Type} (y : ExceptT Autonomi.Error Option α) (s : EncryptionStream),
      s.inputComplete = true →
      Holds (ofRun y) s (fun _ s => s.inputComplete = true) fun _ => MapAtEnd :=
    fun y s hs => holds_ofRun (fun _ => hs) fun _ => hend hs
  refine holds_get ?_
  split_ifs
  · exact holds_pure (nextYields_none (hend hs))
  refine holds_bind (hpure _ s hs) fun hashes s hs => ?_
  refine holds_bind (hdeferred hashes 0 s hs) fun chunk s hs => ?_
  cases chunk with
  | some chunk => exact holds_pure (nextYields_chunk (hend hs))
  | none =>
    refine holds_bind (hdeferred hashes 1 s hs) fun chunk s hs => ?_
    cases chunk with
    | some chunk => exact holds_pure (nextYields_chunk (hend hs))
    | none =>
      refine holds_bind ?_ fun r s hr => holds_pure hr
      refine holds_get (holds_bind (hpure _ s hs) fun infos s hs => ?_)
      refine holds_bind (hshrink _ s hs) fun shrunk s hs => ?_
      refine holds_modify_bind (holds_get ?_)
      cases shrunk.2.2[s.shrinkingChunkIndex]? with
      | some chunk => exact holds_set_bind (holds_pure (nextYields_chunk (hend hs)))
      | none => exact holds_set_bind (holds_pure ⟨hend hs, fun _ _ => nofun⟩)

theorem holds_tryProcessChunks (hs : MapAtEnd s) :
    Holds (tryProcessChunks P m fuel) s NextYields fun _ => MapAtEnd := by
  refine holds_get (holds_bind (atEnd_mapAtEnd.processLoop _ s hs) fun chunk s hs => ?_)
  cases chunk with
  | some chunk => exact holds_pure (nextYields_chunk hs)
  | none =>
    refine holds_get ?_
    split_ifs with hend
    · exact holds_finalizeEncryption hend.1
    · exact holds_pure (nextYields_none hs)

theorem holds_nextLoop (turns : ℕ) (hs : MapAtEnd s) :
    Holds (nextLoop P m fuel turns) s NextYields fun _ => MapAtEnd := by
  induction turns generalizing s with
  | zero => exact holds_pure (nextYields_none hs)
  | succ turns ih =>
    refine holds_get ?_
    cases s.shrinkingChunks[s.shrinkingChunkIndex]? with
    | some chunk =>
      exact holds_set_bind (holds_pure (nextYields_chunk (atEnd_mapAtEnd s _ rfl rfl hs)))
    | none =>
      dsimp only
      split_ifs
      · refine holds_pure ⟨hs, fun map hmap => ?_⟩
        obtain ⟨map', hmap', -⟩ := Option.map_eq_some_iff.1 hmap
        rw [hmap']
        exact nofun
      refine holds_bind (holds_tryProcessChunks hs) fun result s hs => ?_
      cases result with
      | some result => exact holds_pure hs
      | none =>
        refine holds_get ?_
        split_ifs
        · exact holds_pure hs
        cases s.dataIter with
        | nil => exact holds_set_bind (holds_tryProcessChunks fun _ => rfl)
        | cons piece rest =>
          refine holds_set_bind (holds_bind (holds_tryProcessChunks
            (atEnd_mapAtEnd s _ rfl rfl hs.1)) fun result s hs => ?_)
          cases result with
          | some result => exact holds_pure hs
          | none => exact ih hs.1

/-- **The data map comes with the end of the input.** -/
theorem MapAtEnd.chunksNext (hs : MapAtEnd s) {r : Option (Except Autonomi.Error (XorName × Bytes))}
    {s' : EncryptionStream} (h : chunksNext P m fuel s = some (r, s')) : MapAtEnd s' := by
  have hloop : Holds (nextInternal P m fuel) s NextYields fun _ => MapAtEnd :=
    holds_get (holds_nextLoop _ hs)
  unfold Autonomi.chunksNext at h
  cases hnext : nextInternal P m fuel s with
  | none =>
    rw [hnext] at h
    cases h
  | some p =>
    rw [hnext] at h
    obtain ⟨e | _ | chunk | map, s₁⟩ := p
    · obtain ⟨-, rfl⟩ := Prod.mk.inj (Option.some.inj h)
      exact hloop.2 _ _ hnext
    · obtain ⟨-, rfl⟩ := Prod.mk.inj (Option.some.inj h)
      exact (hloop.1 _ _ hnext).1
    · obtain ⟨-, rfl⟩ := Prod.mk.inj (Option.some.inj h)
      exact (hloop.1 _ _ hnext).1
    · obtain ⟨-, rfl⟩ := Prod.mk.inj (Option.some.inj h)
      have hmap := hloop.1 _ _ hnext
      exact fun _ => hmap.1 (hmap.2 map rfl)

end Keeps

/-! ## The loop -/

section Loop

variable {P m fuel} {reads : FileReads} {stream : EncryptionStream} {encryption : FileEncryption}
  {map : DataMap} {turns dataSize : ℕ}

/-- A data map is that of a stream without an error, and of a file without one. -/
theorem sendChunks_ok (hs : MapAtEnd stream)
    (h : sendChunks P m fuel reads turns stream = some encryption)
    (hok : encryption.result = .ok map) :
    ∃ (items : List (XorName × Bytes)) (s' : EncryptionStream),
      Drains (chunksNext P m fuel) stream (items.map .ok) s' ∧ s'.datamap = some map ∧
        reads.readError = none ∧ encryption.chunks = items.map Prod.snd := by
  induction turns generalizing stream encryption with
  | zero => cases h
  | succ turns ih =>
    rw [sendChunks] at h
    cases hnext : chunksNext P m fuel stream with
    | none =>
      rw [hnext] at h
      cases h
    | some p =>
      obtain ⟨r, s₁⟩ := p
      have hs₁ := hs.chunksNext hnext
      rw [hnext] at h
      cases r with
      | none =>
        obtain rfl := Option.some.inj h
        dsimp only at hok
        cases hcaptured : reads.captured s₁ with
        | some e =>
          rw [hcaptured] at hok
          cases hok
        | none =>
          rw [hcaptured] at hok
          have hmap : s₁.datamap = some map := okOr_eq_ok.1 hok
          refine ⟨[], s₁, ⟨stream, .nil, hnext⟩, hmap, ?_, rfl⟩
          have hend : s₁.inputComplete = true := hs₁ (by rw [← datamap, hmap]; exact nofun)
          rwa [FileReads.captured, if_pos hend] at hcaptured
      | some r =>
        dsimp only at h
        cases hcaptured : reads.captured s₁ with
        | some e =>
          rw [hcaptured] at h
          obtain rfl := Option.some.inj h
          cases hok
        | none =>
          rw [hcaptured] at h
          obtain e | ⟨name, content⟩ := r
          · obtain rfl := Option.some.inj h
            cases hok
          · obtain ⟨rest, hrest, rfl⟩ := Option.map_eq_some_iff.1 h
            obtain ⟨items, s', ⟨s₂, hp, hend⟩, hmap, herror, hchunks⟩ := ih hs₁ hrest hok
            refine ⟨(name, content) :: items, s', ⟨s₂, .cons hnext hp, hend⟩, hmap, herror, ?_⟩
            rw [hchunks, List.map_cons]

/-- A stream without an error is sent. -/
theorem sendChunks_drains (hread : reads.readError = none) {items : List (XorName × Bytes)}
    {s' : EncryptionStream} (h : Drains (chunksNext P m fuel) stream (items.map .ok) s')
    (hmap : s'.datamap = some map) :
    sendChunks P m fuel reads (items.length + 1) stream = some ⟨items.map Prod.snd, .ok map⟩ := by
  have hcaptured : ∀ s, reads.captured s = none := fun s => by
    rw [FileReads.captured, hread, ite_self]
  obtain ⟨s₁, hp, hend⟩ := h
  induction items generalizing stream with
  | nil =>
    cases hp
    rw [List.length_nil, sendChunks, hend]
    simp only [hcaptured, hmap]
    rfl
  | cons item items ih =>
    cases hp with
    | cons hnext hp =>
      rw [List.length_cons, sendChunks, hnext]
      simp only [hcaptured, ih hp, Option.map_some]
      rfl

/-- **When the encryption of a file gives a data map**: if no read fails, and the file has not been
    cut to less than begins the last chunk of its size.  (The data map must be one that can be
    shrunk.) -/
theorem spawnFileEncryption_ok_iff (hP : P.Total) (hm : 0 < m) :
    (∃ fuel turns encryption map, spawnFileEncryption P m fuel dataSize reads turns = some encryption ∧
        encryption.result = .ok map) ↔
      3 ≤ dataSize ∧ reads.readError = none ∧
        cut m dataSize (getNumChunks m dataSize - 1) < reads.pieces.flatten.length ∧
        Shrinkable m (getNumChunks m dataSize) := by
  rcases Nat.lt_or_ge dataSize 3 with hsmall | h3
  · refine iff_of_false ?_ fun h => by omega
    rintro ⟨fuel, turns, encryption, map, h, hok⟩
    have hmin : dataSize < minEncryptableBytes := by
      simp only [minEncryptableBytes, minChunkSize]
      omega
    rw [spawnFileEncryption, streamEncrypt, EncryptionStream.new, if_pos hmin] at h
    obtain rfl := Option.some.inj h
    cases hok
  obtain ⟨stream, hstream, hreading⟩ := reading_new hm h3 reads.pieces
  have hstart : MapAtEnd stream := fun h => absurd hreading.unmapped h
  constructor
  · rintro ⟨fuel, turns, encryption, map, h, hok⟩
    rw [spawnFileEncryption, hstream] at h
    obtain ⟨items, s', hd, hmap, herror, -⟩ := sendChunks_ok hstart h hok
    refine ⟨h3, herror, ?_⟩
    by_contra hbad
    rw [not_and_or, Nat.not_lt] at hbad
    rcases hreading.no_datamap hm h3 hbad hd with ⟨e, he⟩ | hnone
    · obtain ⟨item, -, hitem⟩ := List.mem_map.1 he
      cases hitem
    · cases hnone.symm.trans hmap
  · rintro ⟨-, hread, hlong, hshrink⟩
    have hyields : YieldsMap P m (10 + 80 * getNumChunks m dataSize) stream :=
      hreading.yieldsMap hP hm h3 hlong hshrink le_rfl
    obtain ⟨items, s', hd, hmap⟩ := hyields
    obtain ⟨map, hmap⟩ := Option.ne_none_iff_exists'.1 hmap
    refine ⟨10 + 80 * getNumChunks m dataSize, items.length + 1,
      ⟨items.map Prod.snd, .ok map⟩, map, ?_, rfl⟩
    rw [spawnFileEncryption, hstream]
    exact sendChunks_drains hread hd hmap

/-- A file of 331 bytes that is cut by a byte, or cannot be read to its end. -/
theorem spawnFileEncryption_331 :
    (¬ ∃ fuel turns encryption map, spawnFileEncryption clear 110 fuel 331
        ⟨[List.replicate 330 7], none⟩ turns = some encryption ∧ encryption.result = .ok map) ∧
      ¬ ∃ fuel turns encryption map, spawnFileEncryption clear 110 fuel 331
        ⟨[List.replicate 331 7], some "read error"⟩ turns = some encryption ∧
          encryption.result = .ok map := by
  have hcut : cut 110 331 (getNumChunks 110 331 - 1) = 330 := by decide
  constructor
  · rw [spawnFileEncryption_ok_iff clear_total (by decide), hcut, List.flatten_singleton,
      List.length_replicate]
    exact fun h => absurd h.2.2.1 (lt_irrefl 330)
  · rw [spawnFileEncryption_ok_iff clear_total (by decide)]
    exact fun h => absurd h.2.1 nofun

end Loop

/-! ## Up and down -/

section RoundTrip

variable {P m} {C : ClientEvm} {client : Client} {turn : DownloadTurn} {spill : ChunkSpill}
  {N : Type} [DecidableEq N] {B : ℕ} {data : Bytes} {chunks : List EncryptedChunk}

/-- The client gets whatever was spilled. -/
def DownloadTurn.Has (P : Primitives) (C : ClientEvm) (client : Client) (spill : ChunkSpill)
    (turn : DownloadTurn) : Prop :=
  ∀ call place name b, spill.files name = some b →
    ∃ address, turn.get P C client call place name = .ok (some ⟨address, b⟩)

/-- The chunks are those of the spill. -/
structure Spilled (P : Primitives) (spill : ChunkSpill) (chunks : List EncryptedChunk) : Prop where
  files : ∀ c ∈ chunks, ∃ b, spill.files (contentHash P c.content) = some b
  mem : ∀ a b, spill.files a = some b → ⟨b⟩ ∈ chunks

theorem Spilled.genuine (h : Spilled P spill chunks) (hcf : CollisionFree P chunks)
    (hturn : turn.Has P C client spill) : turn.Genuine P C client chunks := by
  intro call place name chunk hget c hc hhash
  have hname : contentHash P chunk.content = name := chunkGet_authentic hget
  obtain ⟨b, hb⟩ := h.files c hc
  rw [← hhash, hname] at hb
  obtain ⟨address, hget'⟩ := hturn call place name b hb
  cases hget.symm.trans hget'
  exact (EncryptedChunk.mk.inj (hcf c hc ⟨b⟩ (h.mem _ b hb) hhash.symm)).symm

theorem Spilled.gets (h : Spilled P spill chunks) (hturn : turn.Has P C client spill) (call : ℕ)
    {infos : List ChunkInfo} (hinfos : ∀ info ∈ infos, Named P chunks info.dstHash) :
    turn.Gets P C client call (infos.map ChunkInfo.request) := by
  intro r hr
  obtain ⟨info, hinfo, hq⟩ := List.mem_map.1 (List.fst_mem_of_mem_zipIdx hr)
  obtain ⟨c, hc, hname⟩ := hinfos info hinfo
  obtain ⟨b, hb⟩ := h.files c hc
  obtain ⟨address, hget⟩ := hturn call r.2 _ b hb
  rw [hname] at hget
  rw [← hq]
  exact ⟨_, hget⟩

/-- The stream of a file that is read without an error yields the chunks of the file. -/
theorem exists_drains (hT : P.Total) (hm : 0 < m) (h3 : 3 ≤ data.length) (hd : data.length ≤ isizeMax)
    (hm' : getNumChunks m data.length ≤ 3 ∨ 110 ≤ m) {pieces : List Bytes}
    (hp : pieces.flatten = data) :
    ∃ map chunks fuel stream, ∃ items : List (XorName × Bytes), ∃ stream',
      Encrypts P m data 0 map chunks ∧ streamEncrypt m data.length pieces = .ok stream ∧
      Drains (chunksNext P m fuel) stream (items.map .ok) stream' ∧ stream'.datamap = some map ∧
      (items.map Prod.snd).Perm (chunks.map EncryptedChunk.content) := by
  obtain ⟨map, chunks, h⟩ : ∃ map chunks, Encrypts P m data 0 map chunks :=
    exists_encrypts hT h3 hd hm hm'
  obtain ⟨fuel, extra, hshrink, rfl, hlen⟩ := h.shrinkDataMap
  obtain ⟨stream, hstream, h0⟩ := streamEncrypt_eq_ok (P := P) hm h3 hp
  exact ⟨map, _, fuel, stream, streamItems P m data extra,
    shrinking P m data map extra extra.length, h, hstream, h0.drains h.sealed hshrink hlen, rfl,
    perm_streamItems⟩

/-- **A file comes back** as it was read, in whatever pieces, if it has at most one level: its
    encryption ends with a data map, and from the chunks that were spilled a download restores it. -/
theorem fileDownload_spilled (hP : P.Ideal) (hT : P.Total) (hm : 0 < m) (h3 : 3 ≤ data.length)
    (hd : data.length ≤ isizeMax) (hm' : getNumChunks m data.length ≤ 3 ∨ 110 ≤ m)
    (h1 : OneLevel m data.length) {pieces : List Bytes} (hp : pieces.flatten = data) (hB : 1 ≤ B) :
    ∃ fuel turns encryption map,
      spawnFileEncryption P m fuel data.length ⟨pieces, none⟩ turns = some encryption ∧
      encryption.result = .ok map ∧
      ∀ writeError spill, encryptFileToSpill P writeError encryption = .ok (spill, map) →
        CollisionFree P (encryption.chunks.map EncryptedChunk.mk) →
        ∀ turn : DownloadTurn, turn.Has P C client spill →
        ∀ (ends : ℕ → OpEnd) (tmpPath output : N) (d : Disk N), tmpPath ≠ output →
          (∀ k < getNumChunks m data.length + 3, ends (d.ops + k) = .done) →
          ∃ d', fileDownload P B ends (getBatch P C client turn) map tmpPath output d =
              some (.ok data.length, d') ∧ d'.files.read output = some data := by
  obtain ⟨map, chunks, fuel, stream, items, stream', hencrypts, hstream, hdrains, hmap, hperm⟩ :=
    exists_drains hT hm h3 hd hm' hp
  obtain ⟨fuel', henc⟩ := hencrypts.eq_ok
  refine ⟨fuel, items.length + 1, ⟨items.map Prod.snd, .ok map⟩, map, ?_, rfl, ?_⟩
  · rw [spawnFileEncryption, hstream]
    exact sendChunks_drains rfl hdrains hmap
  · intro writeError spill hspill hcf turn hturn ends tmpPath output d hne hends
    obtain ⟨-, haddresses, hfiles⟩ := files_encryptFileToSpill hspill
    have hmk : (chunks.map EncryptedChunk.content).map EncryptedChunk.mk = chunks := by
      rw [List.map_map]
      exact List.map_id _
    have hperm' : ((items.map Prod.snd).map EncryptedChunk.mk).Perm chunks :=
      (hperm.map EncryptedChunk.mk).trans (.of_eq hmk)
    have hcf' : CollisionFree P chunks := hcf.subset hperm'.symm.subset
    have hspilled : Spilled P spill chunks := by
      constructor
      · intro c hc
        exact haddresses c.content (hperm.symm.subset (List.mem_map_of_mem hc))
      · intro a b hb
        obtain ⟨c, hc, rfl⟩ := List.mem_map.1 (hperm.subset (hfiles a b hb).1)
        exact hc
    have hserves : turn.Serves P C client m B map data := by
      refine ⟨fun _ => hspilled.gets hturn 0 fun info hinfo => hencrypts.named hinfo, fun j _ => ?_⟩
      refine hspilled.gets hturn _ fun info hinfo => ?_
      exact named_of_infosOf hencrypts.chunksOf_subset
        (List.mem_of_mem_drop (List.mem_of_mem_take hinfo))
    exact fileDownload_undisturbed hP hd henc hcf' (hspilled.genuine hcf' hturn) hB hne d h1 hserves
      hends

end RoundTrip

/-! ## A file of three chunks -/

section Example

variable {P : Primitives} {m fuel turns : ℕ} {data : Bytes} {encryption : FileEncryption} {map : DataMap}
  {spill : ChunkSpill}

/-- Its chunks are those of one level, with whatever fuel. -/
theorem perm_spawnFileEncryption (hs : Sealed P m 0 data) (hN : getNumChunks m data.length ≤ 3)
    {pieces : List Bytes} (hp : pieces.flatten = data)
    (h : spawnFileEncryption P m fuel data.length ⟨pieces, none⟩ turns = some encryption)
    (hok : encryption.result = .ok map) :
    (encryption.chunks.map EncryptedChunk.mk).Perm (chunksOf P m 0 data) := by
  obtain ⟨stream, hstream, h0⟩ := streamEncrypt_eq_ok (P := P) hs.pos.1 hs.pos.2 hp
  rw [spawnFileEncryption, hstream] at h
  obtain ⟨items, s', hdrains, -, -, hchunks⟩ := sendChunks_ok (fun hmap => absurd h0.datamap hmap) h hok
  have hshrink : shrinkDataMap P m fuel () ⟨infosOf P m 0 data, none⟩ (fun _ _ _ => .ok ()) =
      some (.ok ((), ⟨infosOf P m 0 data, none⟩, [])) :=
    shrinkLoop_small (by rwa [DataMap.len_mk, length_infosOf])
  have hitems := hdrains.unique (h0.drains hs hshrink (.inl rfl))
  have hinj : Function.Injective (Except.ok : XorName × Bytes → Except Autonomi.Error _) :=
    fun _ _ => Except.ok.inj
  obtain rfl := List.map_injective_iff.2 hinj hitems
  rw [hchunks]
  refine (perm_streamItems.map EncryptedChunk.mk).trans (.of_eq ?_)
  rw [List.append_nil, List.map_map]
  exact List.map_id _

/-- Without an error of the disk there is a spill. -/
theorem exists_encryptFileToSpill (hok : encryption.result = .ok map) :
    ∃ spill, encryptFileToSpill P (fun _ => none) encryption = .ok (spill, map) := by
  have hpush : ∀ (contents : List Bytes) (spill : ChunkSpill),
      ∃ spill', contents.foldlM (ChunkSpill.push P fun _ => none) spill = .ok spill' := by
    intro contents
    induction contents with
    | nil => exact fun spill => ⟨spill, rfl⟩
    | cons content contents ih =>
      intro spill
      rw [List.foldlM_cons, ChunkSpill.push]
      split_ifs
      · exact ih spill
      · exact ih _
  obtain ⟨spill, hspill⟩ := hpush encryption.chunks .new
  refine ⟨spill, ?_⟩
  rw [encryptFileToSpill, hspill, hok]
  rfl

/-- The chunk comes from a cache of these chunks. -/
def FromCache (P : Primitives) (chunks : List EncryptedChunk) (c : EncryptedChunk) : Prop :=
  ((chunkGet P exampleClientEvm exampleClient offline (contentHash P c.content)
    (cacheOf P chunks .default)).1.toOption.join.map DataChunk.content) = some c.content

instance (chunks : List EncryptedChunk) (c : EncryptedChunk) : Decidable (FromCache P chunks c) :=
  inferInstanceAs (Decidable (_ = _))

theorem has_cachedTurn {chunks : List EncryptedChunk} (hcached : ∀ c ∈ chunks, FromCache P chunks c)
    (hfiles : ∀ a b, spill.files a = some b → ⟨b⟩ ∈ chunks ∧ computeAddress P b = a) :
    (cachedTurn P chunks).Has P exampleClientEvm exampleClient spill := by
  intro call place name b hb
  obtain ⟨hmem, rfl⟩ := hfiles name b hb
  obtain ⟨⟨address, content⟩, hfound, rfl⟩ := Option.map_eq_some_iff.1 (hcached _ hmem)
  exact ⟨address, eq_ok_of_toOption (Option.join_eq_some_iff.1 hfound)⟩

theorem cached_300 : CollisionFree clear (chunksOf clear 110 0 (List.replicate 300 7)) ∧
    ∀ c ∈ chunksOf clear 110 0 (List.replicate 300 7),
      FromCache clear (chunksOf clear 110 0 (List.replicate 300 7)) c := by decide +kernel

/-- It is read in two pieces, and comes back from its spill. -/
theorem fileDownload_spilled_300 : ∃ fuel turns encryption map spill d',
    spawnFileEncryption clear 110 fuel 300 ⟨[List.replicate 200 7, List.replicate 100 7], none⟩ turns =
      some encryption ∧
    encryptFileToSpill clear (fun _ => none) encryption = .ok (spill, map) ∧
    fileDownload clear 10 (fun _ => .done) (getBatch clear exampleClientEvm exampleClient
        (cachedTurn clear (chunksOf clear 110 0 (List.replicate 300 7)))) map false true exampleDisk =
      some (.ok 300, d') ∧
    d'.files.read true = some (List.replicate 300 7) := by
  have hflat : [List.replicate 200 (7 : UInt8), List.replicate 100 7].flatten =
      List.replicate 300 7 := by
    rw [List.flatten_cons, List.flatten_singleton, List.replicate_append_replicate]
  have hlen : (List.replicate 300 (7 : UInt8)).length = 300 := List.length_replicate
  have hs : Sealed clear 110 0 (List.replicate 300 7) :=
    sealed_of_total clear_total (by rw [hlen]; decide)
  obtain ⟨fuel, turns, encryption, map, h, hok, hdownload⟩ := @fileDownload_spilled clear 110
    exampleClientEvm exampleClient Bool _ 10 (List.replicate 300 7) clear_ideal clear_total (by decide)
    (by rw [hlen]; decide) (by rw [hlen]; decide) (by rw [hlen]; decide) (by rw [hlen]; decide) _ hflat
    (by decide)
  have hperm := perm_spawnFileEncryption hs (by rw [hlen]; decide) hflat h hok
  obtain ⟨spill, hspill⟩ := exists_encryptFileToSpill (P := clear) hok
  obtain ⟨-, -, hfiles⟩ := files_encryptFileToSpill hspill
  have hhas := has_cachedTurn cached_300.2 fun a b hb =>
    ⟨hperm.subset (List.mem_map_of_mem (hfiles a b hb).1), (hfiles a b hb).2⟩
  obtain ⟨d', hrun, hread⟩ := hdownload (fun _ => none) spill hspill
    (cached_300.1.subset hperm.subset) _ hhas (fun _ => .done) false true exampleDisk (by decide)
    fun _ _ => rfl
  rw [hlen] at h hrun
  exact ⟨fuel, turns, encryption, map, spill, d', h, hspill, hrun, hread⟩

end Example

end Autonomi.AntClient
