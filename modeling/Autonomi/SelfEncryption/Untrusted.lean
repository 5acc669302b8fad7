/-
  Reading with a data map that nobody vouches for: which calls stop the program.

  Sizes of the map are added up without a check, and so are the two arguments
  of `get_range`.  All else, in whatever order and with whatever indices the
  infos come, ends with a result or an error.
-/
import Autonomi.SelfEncryption.Checked

namespace Autonomi

open Lib DecryptionStream

namespace Checked

variable {W B : ℕ} {P : Primitives} {fetch : Fetch} {s : DecryptionStream}

/-! ## Iteration -/

/-- What holds of a stream from its opening on.  The infos are a `Vec`, so there are not half as
    many of them as there are numbers. -/
structure Bounded (W B : ℕ) (s : DecryptionStream) : Prop where
  infos : 2 * s.chunkInfos.length < W
  batch : B < W
  start : s.currentBatchStart = 0 ∨ B ≤ s.currentBatchStart ∨
    s.chunkInfos.length ≤ s.currentBatchStart
  chunks : s.currentBatchChunks.length ≤ s.chunkInfos.length
  sorted : s.chunkInfos.Pairwise fun a b => a.index ≤ b.index

theorem Bounded.nextOfBatch_eq (h : Bounded W B s) :
    nextOfBatch W s = some (Autonomi.nextOfBatch s) := by
  have hinfos := h.infos
  have hchunks := h.chunks
  unfold nextOfBatch Autonomi.nextOfBatch
  cases hget : s.currentBatchChunks[s.currentBatchIndex]? with
  | none => rfl
  | some chunk =>
    have hlt := (List.getElem?_eq_some_iff.1 hget).1
    simp only [Word.add_of_lt (show s.currentBatchIndex + 1 < W by omega)]
    rfl

theorem Bounded.fetchNextBatch_eq (h : Bounded W B s) :
    fetchNextBatch W P B fetch s = Autonomi.fetchNextBatch P B fetch s := by
  have hinfos := h.infos
  have hbatch := h.batch
  rw [fetchNextBatch, Autonomi.fetchNextBatch, Act.get_bind, Act.get_bind]
  by_cases hend : s.chunkInfos.length ≤ s.currentBatchStart
  · rw [if_pos hend, if_pos hend]
  · have hadd : s.currentBatchStart + B < W := by
      rcases h.start with h0 | hle | hle
      · omega
      · omega
      · exact absurd hle hend
    rw [if_neg hend, if_neg hend, Word.add_of_lt hadd, Act.ofOption_bind]
    simp only [decryptBatch_eq]

theorem Bounded.decryptionNext_eq (h : Bounded W B s)
    (hnext : ∀ {r s'}, Autonomi.fetchNextBatch P B fetch s = some (r, s') → Bounded W B s') :
    decryptionNext W P B fetch s = Autonomi.decryptionNext P B fetch s := by
  unfold decryptionNext Autonomi.decryptionNext
  by_cases hend : s.currentBatchChunks.length ≤ s.currentBatchIndex
  · rw [if_pos hend, if_pos hend, h.fetchNextBatch_eq]
    cases hfetch : Autonomi.fetchNextBatch P B fetch s with
    | none => rfl
    | some r =>
      obtain ⟨r, s'⟩ := r
      cases r with
      | error e => rfl
      | ok more =>
        cases more with
        | false => rfl
        | true => exact (hnext hfetch).nextOfBatch_eq
  · rw [if_neg hend, if_neg hend, h.nextOfBatch_eq]
    rfl

/-- A batch adds at most a chunk for each of its entries. -/
theorem post_decryptBatch : ∀ (batch : List (ChunkInfo × (ℕ × Bytes))) (s : DecryptionStream),
    Act.Post (Autonomi.decryptBatch P batch) s
      (fun _ s' => ∃ new : List Bytes, new.length ≤ batch.length ∧
        s' = { s with currentBatchChunks := s.currentBatchChunks ++ new })
      (fun _ s' => ∃ new : List Bytes, new.length ≤ batch.length ∧
        s' = { s with currentBatchChunks := s.currentBatchChunks ++ new })
  | [], s => Act.post_pure ⟨[], Nat.zero_le _, by rw [List.append_nil]⟩
  | (info, (_, content)) :: batch, s => by
    refine Act.post_get (Act.post_bind (Act.post_ofExcept (fun chunk _ => ?_) fun e _ => ?_))
    · refine Act.post_bind (Act.post_set ?_)
      rcases post_decryptBatch batch { s with
          currentBatchChunks := s.currentBatchChunks ++ [chunk] } with
        ⟨u, s', hx, new, hnew, rfl⟩ | ⟨e, s', hx, new, hnew, rfl⟩
      · exact .inl ⟨u, _, hx, chunk :: new, Nat.succ_le_succ hnew, by rw [List.append_assoc]; rfl⟩
      · exact .inr ⟨e, _, hx, chunk :: new, Nat.succ_le_succ hnew, by rw [List.append_assoc]; rfl⟩
    · exact ⟨[], Nat.zero_le _, by rw [List.append_nil]⟩

/-- The batch that follows. -/
def Follows (W B : ℕ) (s s' : DecryptionStream) : Prop :=
  Bounded W B s' ∧ s'.chunkInfos = s.chunkInfos ∧ s'.currentBatchIndex = 0 ∧
    s.currentBatchStart < s.chunkInfos.length ∧
    s'.currentBatchStart = min (s.currentBatchStart + B) s.chunkInfos.length ∧
    s'.currentBatchChunks.length ≤ s'.currentBatchStart - s.currentBatchStart

theorem Bounded.post_fetchNextBatch (P : Primitives) (fetch : Fetch) (h : Bounded W B s) :
    Act.Post (Autonomi.fetchNextBatch P B fetch) s
      (fun more s' => if more then Follows W B s s' else s' = s)
      (fun _ s' => Bounded W B s' ∧ s'.chunkInfos = s.chunkInfos) := by
  refine Act.post_get ?_
  by_cases hend : s.chunkInfos.length ≤ s.currentBatchStart
  · rw [if_pos hend]
    exact Act.post_pure rfl
  rw [if_neg hend]
  have hrange : batchRange s.chunkInfos s.currentBatchStart
      (min (s.currentBatchStart + B) s.chunkInfos.length) = .ok (slice s.chunkInfos
        s.currentBatchStart (min (s.currentBatchStart + B) s.chunkInfos.length)) :=
    if_pos ⟨by omega, min_le_right _ _⟩
  refine Act.post_bind (.inl ⟨_, s, congrArg (fun r => some (r, s)) hrange, ?_⟩)
  have hbounded : ∀ (calls : ℕ) (new : List Bytes), new.length ≤ s.chunkInfos.length →
      Bounded W B { s with calls := calls, currentBatchChunks := new } :=
    fun calls new hnew => { h with chunks := hnew }
  refine Act.post_bind (Act.post_get (Act.post_bind (Act.post_set ?_)))
  refine Act.post_ofExcept (fun fetched _ => ?_) fun e _ => ⟨hbounded _ _ h.chunks, rfl⟩
  refine Act.post_bind (Act.post_modify (Act.post_bind ?_))
  have hlen : ∀ fetched : List (ℕ × Bytes), ((slice s.chunkInfos s.currentBatchStart
      (min (s.currentBatchStart + B) s.chunkInfos.length)).zip (sortFetched fetched)).length ≤
      min (s.currentBatchStart + B) s.chunkInfos.length - s.currentBatchStart := by
    intro fetched
    rw [List.length_zip, length_slice]
    omega
  rcases post_decryptBatch (P := P) ((slice s.chunkInfos s.currentBatchStart
      (min (s.currentBatchStart + B) s.chunkInfos.length)).zip (sortFetched fetched))
    { s with calls := s.calls + 1, currentBatchChunks := [] } with
    ⟨u, s', hx, new, hnew, rfl⟩ | ⟨e, s', hx, new, hnew, rfl⟩
  · have hnew := hnew.trans (hlen fetched)
    refine .inl ⟨u, _, hx, Act.post_bind (Act.post_modify (Act.post_pure ?_))⟩
    have hlt := Nat.lt_of_not_le hend
    refine ⟨{ h with start := ?_, chunks := ?_ }, rfl, rfl, hlt, rfl, hnew⟩
    · show min (s.currentBatchStart + B) s.chunkInfos.length = 0 ∨
        B ≤ min (s.currentBatchStart + B) s.chunkInfos.length ∨
        s.chunkInfos.length ≤ min (s.currentBatchStart + B) s.chunkInfos.length
      omega
    · show ([] ++ new).length ≤ s.chunkInfos.length
      rw [List.nil_append]
      omega
  · have hnew := hnew.trans (hlen fetched)
    refine .inr ⟨e, _, hx, hbounded _ _ ?_, rfl⟩
    rw [List.nil_append]
    omega

/-- How many infos and chunks are left; an item takes one of them. -/
def left (s : DecryptionStream) : ℕ :=
  2 * (s.chunkInfos.length - s.currentBatchStart) +
    (s.currentBatchChunks.length - s.currentBatchIndex)

theorem Bounded.nextOfBatch (h : Bounded W B s) :
    Bounded W B (Autonomi.nextOfBatch s).2 ∧
      (Autonomi.nextOfBatch s).2.chunkInfos = s.chunkInfos ∧
      ((Autonomi.nextOfBatch s).1 ≠ none → left (Autonomi.nextOfBatch s).2 + 1 = left s) := by
  unfold Autonomi.nextOfBatch
  cases hget : s.currentBatchChunks[s.currentBatchIndex]? with
  | none => exact ⟨h, rfl, fun hne => absurd rfl hne⟩
  | some chunk =>
    have hlt := (List.getElem?_eq_some_iff.1 hget).1
    refine ⟨{ h with }, rfl, fun _ => ?_⟩
    simp only [left]
    omega

/-- **A call of `next`** returns, and a chunk that it returns is one fewer. -/
theorem Bounded.next (P : Primitives) (fetch : Fetch) (h : Bounded W B s) : ∃ r s',
    decryptionNext W P B fetch s = some (r, s') ∧ Bounded W B s' ∧ s'.chunkInfos = s.chunkInfos ∧
      ∀ chunk, r = some (.ok chunk) → left s' < left s := by
  have hpost := h.post_fetchNextBatch P fetch
  have hbounded : ∀ {r s'}, Autonomi.fetchNextBatch P B fetch s = some (r, s') → Bounded W B s' := by
    intro r s' hr
    rcases hpost with ⟨more, s₁, hx, hs⟩ | ⟨e, s₁, hx, hs⟩
    · obtain ⟨rfl, rfl⟩ := Prod.mk.inj (Option.some.inj (hx.symm.trans hr))
      cases more with
      | false => obtain rfl := hs; exact h
      | true => exact hs.1
    · obtain ⟨rfl, rfl⟩ := Prod.mk.inj (Option.some.inj (hx.symm.trans hr))
      exact hs.1
  rw [h.decryptionNext_eq hbounded, Autonomi.decryptionNext]
  by_cases hend : s.currentBatchChunks.length ≤ s.currentBatchIndex
  · rw [if_pos hend]
    rcases hpost with ⟨more, s₁, hx, hs⟩ | ⟨e, s₁, hx, hs⟩
    · rw [hx]
      cases more with
      | false =>
        obtain rfl := hs
        exact ⟨none, s₁, rfl, h, rfl, nofun⟩
      | true =>
        obtain ⟨hb, hinfos, hindex, hlt, hstart, hchunks⟩ := hs
        obtain ⟨hb', hinfos', hleft⟩ := hb.nextOfBatch
        refine ⟨(Autonomi.nextOfBatch s₁).1, (Autonomi.nextOfBatch s₁).2, rfl, hb',
          hinfos'.trans hinfos, fun chunk hchunk => ?_⟩
        have := hleft (by rw [hchunk]; exact nofun)
        simp only [left, hinfos', hinfos] at this ⊢
        omega
    · rw [hx]
      exact ⟨_, s₁, rfl, hs.1, hs.2, nofun⟩
  · rw [if_neg hend]
    obtain ⟨hb', hinfos', hleft⟩ := h.nextOfBatch
    refine ⟨(Autonomi.nextOfBatch s).1, (Autonomi.nextOfBatch s).2, rfl, hb', hinfos',
      fun chunk hchunk => ?_⟩
    have := hleft (by rw [hchunk]; exact nofun)
    omega

/-! ## All calls -/

theorem returns_getRange (start len : ℕ) : Act.Returns (Autonomi.getRange P fetch start len) := by
  have hcallback : ∀ requests, Act.Returns (callback fetch requests) := fun requests =>
    .bind .get fun s => .bind (.set _) fun _ => .ofExcept _
  refine .bind .get fun s => ?_
  dsimp only
  split_ifs
  · exact .pure []
  · exact .pure []
  · exact .bind (hcallback _) fun fetched => .bind (.ofExcept _) fun bytes => .pure _

/-- The infos of an open stream are sorted, and it is at its start. -/
theorem bounded_of_streamingDecrypt {dataMap : DataMap} {stream : DecryptionStream}
    (h : Autonomi.streamingDecrypt P fetch dataMap = .ok stream)
    (hinfos : 2 * stream.chunkInfos.length < W) (hB : B < W) : Bounded W B stream := by
  obtain ⟨infos, hsort⟩ : ∃ infos, stream = { stream with
      chunkInfos := sortByIndex infos
      currentBatchStart := 0
      currentBatchChunks := [] } := by
    unfold Autonomi.streamingDecrypt DecryptionStream.new at h
    split_ifs at h
    · obtain ⟨⟨root, calls⟩, -, h⟩ := bind_eq_ok.1 h
      obtain rfl := Except.ok.inj h
      exact ⟨root.infos, rfl⟩
    · obtain rfl := Except.ok.inj h
      exact ⟨dataMap.infos, rfl⟩
  rw [hsort]
  rw [hsort] at hinfos
  exact ⟨hinfos, hB, .inl rfl, Nat.zero_le _, List.pairwise_insertionSort _ infos⟩

/-- The iteration ends, with no item or with an error. -/
def Iterates (W : ℕ) (P : Primitives) (B : ℕ) (fetch : Fetch) (s : DecryptionStream) : Prop :=
  ∃ items : List Bytes, ∃ last s₁ s₂, Pulls (decryptionNext W P B fetch) s (items.map .ok) s₁ ∧
    decryptionNext W P B fetch s₁ = some (last, s₂) ∧ ∀ chunk, last ≠ some (.ok chunk)

theorem Bounded.iterates (h : Bounded W B s) : Iterates W P B fetch s := by
  induction hn : left s using Nat.strong_induction_on generalizing s with
  | _ n ih =>
    obtain ⟨r, s', hr, hb, -, hleft⟩ := h.next P fetch
    by_cases hok : ∃ chunk, r = some (.ok chunk)
    · obtain ⟨chunk, rfl⟩ := hok
      obtain ⟨items, last, s₁, s₂, hp, hlast, hend⟩ := ih _ (hn ▸ hleft chunk rfl) hb rfl
      exact ⟨chunk :: items, last, s₁, s₂, .cons hr hp, hlast, hend⟩
    · exact ⟨[], r, s, s', .nil, hr, fun chunk hchunk => hok ⟨chunk, hchunk⟩⟩

theorem Bounded.pulls {items : List (Except Error Bytes)} {s' : DecryptionStream}
    (h : Bounded W B s) (hp : Pulls (decryptionNext W P B fetch) s items s') :
    Bounded W B s' ∧ s'.chunkInfos = s.chunkInfos := by
  induction hp with
  | nil => exact ⟨h, rfl⟩
  | cons hnext _ ih =>
    obtain ⟨r, s₁, hr, hb, hinfos, -⟩ := h.next P fetch
    obtain ⟨-, rfl⟩ := Prod.mk.inj (Option.some.inj (hr.symm.trans hnext))
    exact ⟨(ih hb).1, (ih hb).2.trans hinfos⟩

/-- **Reading is total**: from a list of chunks, and through a stream, in every state of its
    iteration. -/
def ReadsTotal (W : ℕ) (P : Primitives) (B : ℕ) (fetch : Fetch) (dataMap : DataMap)
    (chunks : List EncryptedChunk) (start len : ℕ) : Prop :=
  decrypt W P 102 dataMap chunks ≠ none ∧
  ∃ r, streamingDecrypt W P fetch 102 dataMap = some r ∧ ∀ stream, r = .ok stream →
    Iterates W P B fetch stream ∧
    ∀ items s, Pulls (decryptionNext W P B fetch) stream items s →
      decryptionNext W P B fetch s ≠ none ∧ fileSize W s ≠ none ∧
        getRange W P fetch start len s ≠ none

/-- The sizes of the infos fit, and so does the end of the range. -/
def RangeFits (W start len : ℕ) (s : DecryptionStream) : Prop :=
  s.fileSize < W ∧ (s.fileSize ≤ start ∨ start + len < W)

theorem fileSize_of_chunkInfos {s' : DecryptionStream} (h : s'.chunkInfos = s.chunkInfos) :
    s'.fileSize = s.fileSize := by
  rw [DecryptionStream.fileSize, h, DecryptionStream.fileSize]

variable {dataMap : DataMap} {chunks : List EncryptedChunk} {stream : DecryptionStream}
  {start len : ℕ}

theorem not_readsTotal_of_stream (hW : 101 < W)
    (h : Autonomi.streamingDecrypt P fetch dataMap = .ok stream)
    (hfits : ¬ RangeFits W start len stream) :
    ¬ ReadsTotal W P B fetch dataMap chunks start len := by
  rintro ⟨-, r, hr, hstream⟩
  rw [streamingDecrypt_eq hW, h] at hr
  obtain ⟨-, hall⟩ := hstream stream (Option.some.inj hr).symm
  exact (hall [] stream .nil).2.2 (getRange_eq_none (by omega) hfits)

/-- **Which calls stop**: exactly those of `file_size` and `get_range` on a stream whose sizes, or
    whose range, do not fit.  (`hvec`: the infos are a `Vec`.) -/
theorem readsTotal_iff (hW : 101 < W) (hB : B < W)
    (hvec : ∀ stream, Autonomi.streamingDecrypt P fetch dataMap = .ok stream →
      2 * stream.chunkInfos.length < W) :
    ReadsTotal W P B fetch dataMap chunks start len ↔
      ∀ stream, Autonomi.streamingDecrypt P fetch dataMap = .ok stream →
        RangeFits W start len stream := by
  constructor
  · intro htotal stream hstream
    by_contra hfits
    exact not_readsTotal_of_stream hW hstream hfits htotal
  · intro hfits
    refine ⟨by rw [decrypt_eq hW]; exact nofun, _, streamingDecrypt_eq hW dataMap, ?_⟩
    intro stream hstream
    have hb := bounded_of_streamingDecrypt hstream (hvec stream hstream) hB
    refine ⟨hb.iterates, fun items s hp => ?_⟩
    obtain ⟨hb', hinfos⟩ := hb.pulls hp
    obtain ⟨hsize, hend⟩ := hfits stream hstream
    rw [← fileSize_of_chunkInfos hinfos] at hsize hend
    obtain ⟨r, s', hr, -⟩ := hb'.next P fetch
    refine ⟨by rw [hr]; exact nofun, ?_, ?_⟩
    · rw [fileSize_eq (by omega), if_pos hsize]
      exact nofun
    · rw [getRange_eq hb'.sorted hsize hend]
      exact returns_getRange start len s

/-! ## Maps that stop the reader -/

/-- Three infos of one size. -/
def threeInfos (srcSize : ℕ) : DataMap :=
  ⟨(List.range 3).map fun i => ⟨i, contentHash clear [], contentHash clear [], srcSize⟩, none⟩

theorem fits_threeInfos {srcSize : ℕ} (h : srcSize < 2 ^ 64) : (threeInfos srcSize).Fits := by
  refine ⟨show 3 < 2 ^ 64 by decide, fun c hc => ?_, fun c hc => ?_, nofun⟩
  · obtain ⟨i, hi, rfl⟩ := List.mem_map.1 hc
    have := List.mem_range.1 hi
    show i < 2 ^ 64
    omega
  · obtain ⟨i, -, rfl⟩ := List.mem_map.1 hc
    exact h

theorem streamingDecrypt_threeInfos (fetch : Fetch) (srcSize : ℕ) : ∃ stream,
    Autonomi.streamingDecrypt clear fetch (threeInfos srcSize) = .ok stream ∧
      stream.chunkInfos = (threeInfos srcSize).infos := by
  refine ⟨_, rfl, ?_⟩
  refine sortByIndex_eq ?_
  rw [Indexed, threeInfos, DataMap.infos_mk, List.pairwise_map]
  exact List.pairwise_lt_range

theorem fileSize_threeInfos {stream : DecryptionStream} {srcSize : ℕ}
    (h : stream.chunkInfos = (threeInfos srcSize).infos) : stream.fileSize = 3 * srcSize := by
  rw [DecryptionStream.fileSize, h]
  show 0 + srcSize + srcSize + srcSize = 3 * srcSize
  omega

/-- A map of three bytes is read, up to the end of its range. -/
theorem readsTotal_three : ReadsTotal usizeSize clear 10 (fun _ _ => .ok []) (threeInfos 1) [] 1 2 := by
  obtain ⟨stream, hstream, hinfos⟩ := streamingDecrypt_threeInfos (fun _ _ => .ok []) 1
  have heq : ∀ t, Autonomi.streamingDecrypt clear (fun _ _ => .ok []) (threeInfos 1) = .ok t →
      t = stream := fun t ht => Except.ok.inj (ht.symm.trans hstream)
  refine (readsTotal_iff (show 101 < usizeSize by decide) (show 10 < usizeSize by decide) ?_).2 ?_
  · intro t ht
    rw [heq t ht, hinfos]
    decide
  · intro t ht
    rw [heq t ht, RangeFits, fileSize_threeInfos hinfos]
    exact ⟨by decide, .inr (by decide)⟩

/-- Both maps are read from bytes.  The sizes of the first do not fit; of the second, of three bytes,
    a range is asked for that ends at the number after the last one. -/
theorem not_readsTotal : ∃ dataMap dataMap', DataMap.fromBytes dataMap.encode = .ok dataMap ∧
    DataMap.fromBytes dataMap'.encode = .ok dataMap' ∧
    ¬ ReadsTotal usizeSize clear 10 (fun _ _ => .ok []) dataMap [] 0 1 ∧
    ¬ ReadsTotal usizeSize clear 10 (fun _ _ => .ok []) dataMap' [] 1 (2 ^ 64 - 1) := by
  have hread : ∀ {srcSize}, srcSize < 2 ^ 64 →
      DataMap.fromBytes (threeInfos srcSize).encode = .ok (threeInfos srcSize) := by
    intro srcSize h
    have := DataMap.fromBytes_encode (fits_threeInfos h) []
    rwa [List.append_nil] at this
  refine ⟨threeInfos (2 ^ 63), threeInfos 1, hread (by decide), hread (by decide), ?_, ?_⟩
  · obtain ⟨stream, hstream, hinfos⟩ := streamingDecrypt_threeInfos (fun _ _ => .ok []) (2 ^ 63)
    refine not_readsTotal_of_stream (show 101 < usizeSize by decide) hstream ?_
    rw [RangeFits, fileSize_threeInfos hinfos]
    decide
  · obtain ⟨stream, hstream, hinfos⟩ := streamingDecrypt_threeInfos (fun _ _ => .ok []) 1
    refine not_readsTotal_of_stream (show 101 < usizeSize by decide) hstream ?_
    rw [RangeFits, fileSize_threeInfos hinfos]
    decide

end Checked

end Autonomi
