/-
  The encryption stream yields what `encrypt` returns, however the file is
  cut into pieces.

  The states of a run are known: `filling` while chunks are read, `finishing`
  while the two deferred chunks are yielded, `shrinking` while the chunks of
  the data map are.  Each lemma says what one call does in one of them.
-/
import Autonomi.SelfEncryption.StreamEncrypt

namespace Autonomi

open Lib EncryptionStream

variable {P : Primitives} {m : ℕ} {data : Bytes}

/-! ## The states of a run -/

/-- How many bytes of `data` have come. -/
def avail (data : Bytes) (rest : List Bytes) : ℕ := data.length - rest.flatten.length

/-- The info of a chunk that is read: for the deferred ones, before encryption. -/
def infoRead (P : Primitives) (m : ℕ) (data : Bytes) (i : ℕ) : ChunkInfo :=
  if i < 2 then { infoAt P m 0 data i with dstHash := contentHash P [] } else infoAt P m 0 data i

/-- `p` chunks have been read, and `rest` is still to come. -/
def filling (P : Primitives) (m : ℕ) (data : Bytes) (rest : List Bytes) (p : ℕ) :
    EncryptionStream where
  dataIter := rest
  dataSize := data.length
  buffer := slice data (cut m data.length p) (avail data rest)
  chunksProcessed := p
  totalChunks := getNumChunks m data.length
  srcHashes := (List.range (getNumChunks m data.length)).map fun i =>
    if i < p then some (srcHashAt P m data i) else none
  deferredChunks := (List.range 2).map fun i => if i < p then some (chunkAt m data i) else none
  chunkInfos := (List.range (getNumChunks m data.length)).map fun i =>
    if i < p then some (infoRead P m data i) else none
  inputComplete := false
  isComplete := false
  finalDatamap := none
  shrinkingChunks := []
  shrinkingChunkIndex := 0

/-- All is read, and `k` of the deferred chunks have been yielded. -/
def finishing (P : Primitives) (m : ℕ) (data : Bytes) (k : ℕ) : EncryptionStream :=
  { filling P m data [] (getNumChunks m data.length) with
    deferredChunks := (List.range 2).map fun i => if i < k then none else some (chunkAt m data i)
    chunkInfos := (List.range (getNumChunks m data.length)).map fun i =>
      some (if i < k then infoAt P m 0 data i else infoRead P m data i)
    inputComplete := true }

/-- The data map is there, and `k` of the chunks it was shrunk to have been yielded. -/
def shrinking (P : Primitives) (m : ℕ) (data : Bytes) (map : DataMap)
    (extra : List EncryptedChunk) (k : ℕ) : EncryptionStream :=
  { finishing P m data 2 with
    isComplete := extra.length ≤ k
    finalDatamap := some map
    shrinkingChunks := extra
    shrinkingChunkIndex := k }

/-- What holds while chunks are read. -/
structure Filled (m : ℕ) (data : Bytes) (rest : List Bytes) (p : ℕ) : Prop where
  suffix : rest.flatten <:+ data
  le : p ≤ getNumChunks m data.length
  cut_le : cut m data.length p ≤ avail data rest

theorem avail_le (data : Bytes) (rest : List Bytes) : avail data rest ≤ data.length :=
  Nat.sub_le _ _

theorem Filled.enough {rest : List Bytes} {p : ℕ} (h : Filled m data rest p)
    (hp : cut m data.length (p + 1) ≤ avail data rest) (hlt : p < getNumChunks m data.length) :
    Filled m data rest (p + 1) :=
  ⟨h.suffix, hlt, hp⟩

/-- The next piece goes to the end of the buffer. -/
theorem Filled.pull {d : Bytes} {rest : List Bytes} {p : ℕ} (h : Filled m data (d :: rest) p) :
    Filled m data rest p ∧
      { filling P m data (d :: rest) p with
        dataIter := rest
        buffer := (filling P m data (d :: rest) p).buffer ++ d } = filling P m data rest p := by
  obtain ⟨pre, hpre⟩ := h.suffix
  rw [List.flatten_cons] at hpre
  have hlen : data.length = pre.length + (d.length + rest.flatten.length) := by
    rw [← hpre]; simp
  have ha : avail data (d :: rest) = pre.length := by
    simp only [avail, List.flatten_cons, List.length_append]; omega
  have ha' : avail data rest = pre.length + d.length := by simp only [avail]; omega
  have hd : slice data pre.length (pre.length + d.length) = d := by
    rw [← hpre, slice, List.drop_left' rfl, Nat.add_sub_cancel_left, List.take_left' rfl]
  refine ⟨⟨⟨pre ++ d, by rw [List.append_assoc, hpre]⟩, h.le, ?_⟩, ?_⟩
  · have := h.cut_le; omega
  · have hcut := h.cut_le
    rw [ha] at hcut
    have hbuf : (filling P m data (d :: rest) p).buffer ++ d = (filling P m data rest p).buffer := by
      simp only [filling]
      rw [ha, ha', ← slice_append data hcut (Nat.le_add_right _ d.length), hd]
    rw [hbuf]; rfl

/-! ## One turn of the loop -/

/-- Entry `p` joins the entries below it. -/
theorem known_succ {α : Type} (f : ℕ → α) (p i : ℕ) :
    (if i = p then some (f p) else if i < p then some (f i) else none) =
      if i < p + 1 then some (f i) else none := by
  rcases lt_trichotomy i p with h | rfl | h
  · rw [if_neg h.ne, if_pos h, if_pos (by omega)]
  · rw [if_pos rfl, if_pos (by omega)]
  · rw [if_neg h.ne', if_neg (by omega), if_neg (by omega)]

section Turn

variable {rest : List Bytes} {p : ℕ}

/-- The bytes of the chunks that are processed. -/
theorem getProcessedBytes_eq {n : ℕ} {s : EncryptionStream} (hm : 0 < m) (h3 : 3 ≤ n)
    (hs : s.dataSize = n) (hp : s.chunksProcessed ≤ getNumChunks m n) :
    s.getProcessedBytes m = cut m n s.chunksProcessed := by
  rw [getProcessedBytes, hs]
  generalize s.chunksProcessed = p at hp
  induction p with
  | zero => rw [cut_zero hm h3]; rfl
  | succ p ih =>
    have hmono : cut m n p ≤ cut m n (p + 1) := cut_mono m _ (Nat.le_succ p)
    rw [List.range_succ, List.map_append, List.sum_append, ih (Nat.le_of_succ_le hp),
      List.map_singleton, List.sum_singleton, getStartEndPositions_eq hm h3 hp]
    exact Nat.add_sub_cancel' hmono

theorem getProcessedBytes_filling (rest : List Bytes) (hs : Sealed P m 0 data)
    (hp : p ≤ getNumChunks m data.length) :
    (filling P m data rest p).getProcessedBytes m = cut m data.length p :=
  getProcessedBytes_eq hs.pos.1 hs.pos.2 rfl hp

theorem length_buffer_filling :
    (filling P m data rest p).buffer.length = avail data rest - cut m data.length p := by
  simp only [filling, length_slice]
  rw [min_eq_left (avail_le data rest)]

/-- A turn takes the next chunk if all of it is in the buffer. -/
theorem processTurn_filling (hs : Sealed P m 0 data) (h : Filled m data rest p)
    (hp : p < getNumChunks m data.length) :
    processTurn P m (filling P m data rest p) =
      if cut m data.length (p + 1) ≤ avail data rest then
        processChunkData P 0 p (chunkAt m data p) (filling P m data rest p)
      else some (.ok .stop, filling P m data rest p) := by
  have hlt := cut_lt_cut_succ hs.pos.1 hs.pos.2 hp
  have hcut := h.cut_le
  have hbytes := getProcessedBytes_filling rest hs h.le
  have hpos : getStartEndPositions m (filling P m data rest p).dataSize
      (filling P m data rest p).chunksProcessed =
      (cut m data.length p, cut m data.length (p + 1)) :=
    getStartEndPositions_eq hs.pos.1 hs.pos.2 hp
  have hin : (filling P m data rest p).inputComplete = false := rfl
  have hslice : avail data rest ≥ cut m data.length (p + 1) →
      slice (filling P m data rest p).buffer 0
        (0 + (cut m data.length (p + 1) - cut m data.length p)) = chunkAt m data p := by
    intro ha
    simp only [filling, slice_slice, chunkAt, Nat.add_zero]
    congr 1; omega
  simp only [processTurn, Act.get_bind, hpos, hbytes, hin, Nat.sub_self, length_buffer_filling,
    Bool.false_eq_true, or_false, if_false]
  by_cases ha : cut m data.length (p + 1) ≤ avail data rest
  · rw [if_pos ha, if_pos (by omega), if_neg (by omega), if_pos (by omega), hslice ha]; rfl
  · rw [if_neg ha, if_neg (by omega)]; rfl

/-- The chunk is entered, but not encrypted. -/
def recorded (P : Primitives) (m : ℕ) (data : Bytes) (rest : List Bytes) (p : ℕ) :
    EncryptionStream :=
  { filling P m data rest p with
    srcHashes := (filling P m data rest (p + 1)).srcHashes
    chunkInfos := (List.range (getNumChunks m data.length)).map fun i =>
      if i = p then some { infoAt P m 0 data p with dstHash := contentHash P [] }
      else if i < p then some (infoRead P m data i) else none }

theorem recordChunk_filling (hs : Sealed P m 0 data) (hp : p < getNumChunks m data.length) :
    recordChunk P p (chunkAt m data p) (filling P m data rest p) =
      some (.ok (), recorded P m data rest p) := by
  have hsrc : (filling P m data rest p).srcHashes.set p (some (srcHashAt P m data p)) =
      (filling P m data rest (p + 1)).srcHashes := by
    simp only [filling, set_map_range]
    exact List.map_congr_left fun i _ => known_succ (srcHashAt P m data) p i
  have hinfo : (filling P m data rest p).chunkInfos.set p
      (some ⟨p, contentHash P [], srcHashAt P m data p, (chunkAt m data p).length⟩) =
      (recorded P m data rest p).chunkInfos := by
    rw [(hs.length_chunkAt_pos hp).1]
    simp only [filling, recorded, set_map_range]; rfl
  have hlen : (filling P m data rest p).srcHashes.length = getNumChunks m data.length ∧
      (filling P m data rest p).chunkInfos.length = getNumChunks m data.length := by
    simp [filling]
  simp only [recordChunk, Act.get_bind, hlen, if_neg (Nat.not_le_of_lt hp), Act.set_bind,
    Act.modify_run]
  rw [show contentHash P (chunkAt m data p) = srcHashAt P m data p from rfl, hsrc, hinfo]; rfl

theorem advance_recorded (rest : List Bytes) (hs : Sealed P m 0 data) (hp : p < getNumChunks m data.length)
    {deferred : List (Option Bytes)} {infos : List (Option ChunkInfo)}
    (hd : deferred = (filling P m data rest (p + 1)).deferredChunks)
    (hi : infos = (filling P m data rest (p + 1)).chunkInfos) :
    advance 0 (chunkAt m data p).length
      { recorded P m data rest p with deferredChunks := deferred, chunkInfos := infos } =
      filling P m data rest (p + 1) := by
  have hlt := cut_lt_cut_succ hs.pos.1 hs.pos.2 hp
  have hbuf : (filling P m data rest p).buffer.take 0 ++
      (filling P m data rest p).buffer.drop (0 + (chunkAt m data p).length) =
      (filling P m data rest (p + 1)).buffer := by
    rw [List.take_zero, List.nil_append, Nat.zero_add, (hs.length_chunkAt_pos hp).1]
    simp only [filling, drop_slice]
    rw [Nat.add_sub_cancel' hlt.le]
  have h : (recorded P m data rest p).buffer = (filling P m data rest p).buffer := rfl
  simp only [advance, h, hbuf, hd, hi]; rfl

/-- A deferred chunk. -/
theorem processChunkData_defer (hs : Sealed P m 0 data) (hp : p < getNumChunks m data.length)
    (h2 : p < 2) :
    processChunkData P 0 p (chunkAt m data p) (filling P m data rest p) =
      some (.ok .next, filling P m data rest (p + 1)) := by
  have hdefer : (filling P m data rest p).deferredChunks.set p (some (chunkAt m data p)) =
      (filling P m data rest (p + 1)).deferredChunks := by
    simp only [filling, set_map_range]
    exact List.map_congr_left fun i _ => known_succ (chunkAt m data) p i
  have hinfos : (recorded P m data rest p).chunkInfos =
      (filling P m data rest (p + 1)).chunkInfos := by
    have hread : infoRead P m data p = { infoAt P m 0 data p with dstHash := contentHash P [] } :=
      if_pos h2
    simp only [recorded, filling, ← hread]
    exact List.map_congr_left fun i _ => known_succ (infoRead P m data) p i
  have hlen : ¬ (recorded P m data rest p).deferredChunks.length ≤ p := by
    simp [recorded, filling]; omega
  rw [processChunkData, Act.bind_of_ok (recordChunk_filling hs hp)]
  simp only [Act.get_bind, if_pos h2]
  have hstep : deferChunk p (chunkAt m data p) (recorded P m data rest p) =
      some (.ok (), { recorded P m data rest p with
        deferredChunks := (recorded P m data rest p).deferredChunks.set p (some (chunkAt m data p)) }) := by
    simp only [deferChunk, Act.get_bind, if_neg hlen, Act.set_run]
  rw [Act.bind_of_ok hstep]
  simp only [Act.modify_bind, Act.pure_run]
  have hadv := advance_recorded rest hs hp hdefer hinfos
  exact congrArg (fun s => some (Except.ok Turn.next, s)) hadv

/-- Chunk `p` has its hash and those of the two before it. -/
theorem canEncryptChunk_recorded (hp : p < getNumChunks m data.length) (h2 : 2 ≤ p) :
    (recorded P m data rest p).canEncryptChunk p = true := by
  obtain ⟨q, rfl⟩ := Nat.exists_eq_add_of_le' h2
  have hN : getN1N2 (q + 2) (recorded P m data rest (q + 2)).totalChunks = .ok (q + 1, q) := by
    have ht : (recorded P m data rest (q + 2)).totalChunks = getNumChunks m data.length := rfl
    unfold getN1N2
    rw [ht, if_neg (by omega), if_neg (by omega)]; rfl
  have hhas : ∀ i ≤ q + 2, (recorded P m data rest (q + 2)).hasSrcHash i = true := by
    intro i hi
    simp only [hasSrcHash, recorded, filling, getElem?_map_range]
    rw [if_pos (by omega), if_pos (by omega)]; rfl
  rw [canEncryptChunk, if_neg (by omega), hN]
  simp only [hhas _ le_rfl, hhas (q + 1) (by omega), hhas q (by omega), Bool.and_self]

/-- The hashes known so far give the key of chunk `p`. -/
theorem getPadKeyAndNonce_knownHashes (h3 : 3 ≤ getNumChunks m data.length)
    (hp : p < getNumChunks m data.length) (h2 : 2 ≤ p) :
    getPadKeyAndNonce P p ((recorded P m data rest p).knownHashes P) 0 =
      .ok (pkiAt P m 0 data p) := by
  obtain ⟨q, rfl⟩ := Nat.exists_eq_add_of_le' h2
  have hknown : (recorded P m data rest (q + 2)).knownHashes P =
      (List.range (getNumChunks m data.length)).map fun i =>
        if i < q + 2 + 1 then srcHashAt P m data i else contentHash P [] := by
    refine List.map_congr_left fun i hi => ?_
    have hi : i < getNumChunks m data.length := List.mem_range.1 hi
    simp only [recorded, filling, getElem?_map_range, if_pos hi]
    split_ifs <;> rfl
  have h1 : n1Of (getNumChunks m data.length) (q + 2) = q + 1 := rfl
  have h2 : n2Of (getNumChunks m data.length) (q + 2) = q := rfl
  rw [hknown, getPadKeyAndNonce_map_range 0 h3 hp, pkiAt, h1, h2, if_pos (by omega),
    if_pos (by omega), if_pos (by omega)]

theorem streamEncryptChunk_eq {hashes : List XorName} {i : ℕ} {s : EncryptionStream}
    (hpki : getPadKeyAndNonce P i hashes 0 = .ok (pkiAt P m 0 data i))
    (hc : encryptChunk P (chunkAt m data i) (pkiAt P m 0 data i) = .ok (cipherAt P m 0 data i)) :
    streamEncryptChunk P hashes i (chunkAt m data i) s =
      some (.ok ⟨cipherAt P m 0 data i⟩, s.setDstHash i (contentHash P (cipherAt P m 0 data i))) := by
  have hrun : (Act.ofExcept (do
      let pki ← getPadKeyAndNonce P i hashes 0
      encryptChunk P (chunkAt m data i) pki) : Stream Bytes) s =
      some (.ok (cipherAt P m 0 data i), s) := by
    rw [Act.ofExcept_run, hpki]; exact congrArg (fun r => some (r, s)) hc
  rw [streamEncryptChunk, Act.bind_of_ok hrun]; rfl

/-- A chunk that is encrypted at once. -/
theorem processChunkData_yield (hs : Sealed P m 0 data) (hp : p < getNumChunks m data.length)
    (h2 : 2 ≤ p) :
    processChunkData P 0 p (chunkAt m data p) (filling P m data rest p) =
      some (.ok (.yield ⟨cipherAt P m 0 data p⟩), filling P m data rest (p + 1)) := by
  have hdefer : (recorded P m data rest p).deferredChunks =
      (filling P m data rest (p + 1)).deferredChunks := by
    simp only [recorded, filling]
    refine List.map_congr_left fun i hi => ?_
    have := List.mem_range.1 hi
    rw [if_pos (by omega), if_pos (by omega)]
  have hinfos : ((recorded P m data rest p).setDstHash p
      (contentHash P (cipherAt P m 0 data p))).chunkInfos =
      (filling P m data rest (p + 1)).chunkInfos := by
    have hread : infoRead P m data p = infoAt P m 0 data p := if_neg (by omega)
    simp only [setDstHash, recorded, filling, modify_map_range]
    refine List.map_congr_left fun i _ => ?_
    rw [← known_succ, hread]
    split_ifs <;> rfl
  rw [processChunkData, Act.bind_of_ok (recordChunk_filling hs hp)]
  simp only [Act.get_bind, if_neg (Nat.not_lt_of_le h2), canEncryptChunk_recorded hp h2, if_true]
  rw [Act.bind_of_ok (streamEncryptChunk_eq (getPadKeyAndNonce_knownHashes hs.three_le hp h2)
    (hs.cipher p hp))]
  simp only [Act.modify_bind, Act.pure_run]
  have hadv := advance_recorded rest hs hp hdefer hinfos
  exact congrArg (fun s => some (Except.ok (Turn.yield ⟨cipherAt P m 0 data p⟩), s)) hadv

/-- The loop stops at a chunk to yield, or where the buffer is too short. -/
theorem processLoop_filling (hs : Sealed P m 0 data) {turns : ℕ} (h : Filled m data rest p)
    (ht : getNumChunks m data.length - p ≤ turns) :
    (processLoop P m turns (filling P m data rest p) =
        some (.ok (some ⟨cipherAt P m 0 data (max p 2)⟩), filling P m data rest (max p 2 + 1)) ∧
      Filled m data rest (max p 2 + 1)) ∨
    ∃ q, processLoop P m turns (filling P m data rest p) =
        some (.ok none, filling P m data rest q) ∧
      Filled m data rest q ∧ p ≤ q ∧ q ≤ max p 2 ∧
      (q = getNumChunks m data.length ∨ avail data rest < cut m data.length (q + 1)) := by
  induction turns generalizing p with
  | zero => exact .inr ⟨p, rfl, h, le_rfl, le_max_left _ _, .inl (by have := h.le; omega)⟩
  | succ turns ih =>
    have hget : processLoop P m (turns + 1) (filling P m data rest p) =
        (if p < getNumChunks m data.length then
          processTurn P m >>= afterTurn (processLoop P m turns)
        else pure none) (filling P m data rest p) := processLoop_succ P m turns _
    rw [hget]
    by_cases hp : p < getNumChunks m data.length
    swap
    · rw [if_neg hp]
      exact .inr ⟨p, rfl, h, le_rfl, le_max_left _ _, .inl (by have := h.le; omega)⟩
    rw [if_pos hp]
    have hturn := processTurn_filling hs h hp
    by_cases ha : cut m data.length (p + 1) ≤ avail data rest
    · rw [if_pos ha] at hturn
      have hnext := h.enough ha hp
      rcases Nat.lt_or_ge p 2 with h2 | h2
      · rw [processChunkData_defer hs hp h2] at hturn
        rw [Act.bind_of_ok hturn]
        have hmax : max (p + 1) 2 = max p 2 := by omega
        rcases ih hnext (by omega) with hy | ⟨q, hq, hf, hle, hle', hend⟩
        · rw [hmax] at hy; exact .inl hy
        · exact .inr ⟨q, hq, hf, by omega, by omega, hend⟩
      · rw [processChunkData_yield hs hp h2] at hturn
        rw [Act.bind_of_ok hturn, max_eq_left h2]
        exact .inl ⟨rfl, hnext⟩
    · rw [if_neg ha] at hturn
      rw [Act.bind_of_ok hturn]
      exact .inr ⟨p, rfl, h, le_rfl, le_max_left _ _, .inr (by omega)⟩

theorem tryProcessChunks_filling (hs : Sealed P m 0 data) (fuel : ℕ) (h : Filled m data rest p) :
    (tryProcessChunks P m fuel (filling P m data rest p) =
        some (.ok (some (.chunk ⟨cipherAt P m 0 data (max p 2)⟩)),
          filling P m data rest (max p 2 + 1)) ∧
      Filled m data rest (max p 2 + 1)) ∨
    ∃ q, tryProcessChunks P m fuel (filling P m data rest p) =
        some (.ok none, filling P m data rest q) ∧
      Filled m data rest q ∧ p ≤ q ∧ q ≤ max p 2 ∧
      (q = getNumChunks m data.length ∨ avail data rest < cut m data.length (q + 1)) := by
  rw [tryProcessChunks, Act.get_bind]
  rcases processLoop_filling hs h le_rfl with ⟨hy, hf⟩ | ⟨q, hq, hf⟩
  · exact .inl ⟨Act.bind_of_ok hy, hf⟩
  · exact .inr ⟨q, Act.bind_of_ok hq, hf⟩

end Turn

/-! ## The calls while chunks are read -/

section Read

variable {rest : List Bytes} {p turns : ℕ}

/-- One turn of `next_internal` while there is no data map. -/
theorem nextLoop_filling (rest : List Bytes) (p turns fuel : ℕ) :
    nextLoop P m fuel (turns + 1) (filling P m data rest p) =
      (tryProcessChunks P m fuel >>= resultOr (nextPiece P m fuel turns))
        (filling P m data rest p) := nextLoop_succ P m fuel turns rfl rfl

/-- **Until all chunks are read** each call yields the next one, chunk 2 first. -/
theorem nextLoop_yield (hs : Sealed P m 0 data) (fuel : ℕ) (h : Filled m data rest p)
    (hp : p < getNumChunks m data.length) (ht : rest.length < turns) :
    ∃ rest', nextLoop P m fuel turns (filling P m data rest p) =
        some (.ok (some (.chunk ⟨cipherAt P m 0 data (max p 2)⟩)),
          filling P m data rest' (max p 2 + 1)) ∧
      Filled m data rest' (max p 2 + 1) := by
  have h3 := hs.three_le
  induction rest generalizing p turns with
  | nil =>
    obtain ⟨turns, rfl⟩ := Nat.exists_eq_add_of_lt ht
    rw [nextLoop_filling]
    rcases tryProcessChunks_filling hs fuel h with ⟨hy, hf⟩ | ⟨q, -, hf, -, hle, hend⟩
    · exact ⟨[], Act.bind_of_ok hy, hf⟩
    · -- all bytes are in the buffer
      have hcut := cut_le m data.length (q + 1)
      have ha : avail data [] = data.length := by simp [avail]
      omega
  | cons d rest ih =>
    obtain ⟨turns, rfl⟩ := Nat.exists_eq_add_of_lt ht
    rw [nextLoop_filling]
    rcases tryProcessChunks_filling hs fuel h with ⟨hy, hf⟩ | ⟨q, hq, hf, hle, hle', hend⟩
    · exact ⟨d :: rest, Act.bind_of_ok hy, hf⟩
    · rw [Act.bind_of_ok hq]
      have hqN : q < getNumChunks m data.length := by have := hf.le; omega
      obtain ⟨hf', hpull⟩ := hf.pull
      have hmax : max q 2 = max p 2 := by omega
      change ∃ rest', ((tryProcessChunks P m fuel >>= _ : Stream _) { filling P m data (d :: rest) q with
        dataIter := rest
        buffer := (filling P m data (d :: rest) q).buffer ++ d }) = _ ∧ _
      rw [hpull]
      rcases tryProcessChunks_filling hs fuel hf' with ⟨hy, hf⟩ | ⟨q', hq', hf, hle, hle', hend⟩
      · rw [hmax] at hy hf
        exact ⟨rest, Act.bind_of_ok hy, hf⟩
      · rw [Act.bind_of_ok hq', ← hmax, show max q 2 = max q' 2 by omega]
        exact ih hf (by have := hf.le; omega) (by simp only [List.length_cons] at ht ⊢; omega)

end Read

/-! ## The deferred chunks -/

theorem finishing_zero (h3 : 3 ≤ getNumChunks m data.length) :
    { filling P m data [] (getNumChunks m data.length) with inputComplete := true } =
      finishing P m data 0 := by
  have hd : (filling P m data [] (getNumChunks m data.length)).deferredChunks =
      (finishing P m data 0).deferredChunks := by
    simp only [filling, finishing]
    refine List.map_congr_left fun i hi => ?_
    have := List.mem_range.1 hi
    rw [if_pos (by omega), if_neg (by omega)]
  have hi : (filling P m data [] (getNumChunks m data.length)).chunkInfos =
      (finishing P m data 0).chunkInfos := by
    simp only [filling, finishing]
    refine List.map_congr_left fun i hi => ?_
    rw [if_pos (List.mem_range.1 hi), if_neg (by omega)]
  have heq : { filling P m data [] (getNumChunks m data.length) with inputComplete := true } =
      { filling P m data [] (getNumChunks m data.length) with
        deferredChunks := (filling P m data [] (getNumChunks m data.length)).deferredChunks
        chunkInfos := (filling P m data [] (getNumChunks m data.length)).chunkInfos
        inputComplete := true } := rfl
  rw [heq, hd, hi]; rfl

theorem allSrcHashes_finishing (k : ℕ) : allSrcHashes (finishing P m data k) =
    .ok ((List.range (getNumChunks m data.length)).map (srcHashAt P m data)) := by
  simp only [allSrcHashes, finishing, filling, zipIdx_map_range]
  rw [mapM_eq_ok, List.forall₂_map_left_iff, List.forall₂_map_right_iff, List.forall₂_same]
  intro i hi
  rw [if_pos (List.mem_range.1 hi)]; rfl

theorem encryptDeferred_taken {hashes : List XorName} {i k : ℕ} (hi : i < k) (h2 : i < 2) :
    encryptDeferred P hashes i (finishing P m data k) = some (.ok none, finishing P m data k) := by
  have hd : (finishing P m data k).deferredChunks[i]?.join = none := by
    simp only [finishing, getElem?_map_range, if_pos h2, if_pos hi]; rfl
  simp only [encryptDeferred, Act.get_bind, hd, Act.pure_run]

theorem setDstHash_eq {s t : EncryptionStream} {i : ℕ} {h : XorName}
    (hi : (s.setDstHash i h).chunkInfos = t.chunkInfos)
    (ht : { s with chunkInfos := t.chunkInfos } = t) : s.setDstHash i h = t := by
  rw [← ht, ← hi]; rfl

theorem encryptDeferred_next (hs : Sealed P m 0 data) {k : ℕ} (h2 : k < 2) :
    encryptDeferred P ((List.range (getNumChunks m data.length)).map (srcHashAt P m data)) k
      (finishing P m data k) =
      some (.ok (some ⟨cipherAt P m 0 data k⟩), finishing P m data (k + 1)) := by
  have h3 := hs.three_le
  have hd : (finishing P m data k).deferredChunks[k]?.join = some (chunkAt m data k) := by
    simp only [finishing, getElem?_map_range, if_pos h2, if_neg (lt_irrefl k)]; rfl
  have hset : (finishing P m data k).deferredChunks.set k none =
      (finishing P m data (k + 1)).deferredChunks := by
    simp only [finishing, set_map_range]
    refine List.map_congr_left fun i _ => ?_
    rcases lt_trichotomy i k with h | rfl | h
    · rw [if_neg h.ne, if_pos h, if_pos (by omega)]
    · rw [if_pos rfl, if_pos (by omega)]
    · rw [if_neg h.ne', if_neg (by omega), if_neg (by omega)]
  have hinfos : ({ finishing P m data k with
      deferredChunks := (finishing P m data (k + 1)).deferredChunks }.setDstHash k
        (contentHash P (cipherAt P m 0 data k))).chunkInfos =
      (finishing P m data (k + 1)).chunkInfos := by
    simp only [setDstHash, finishing, modify_map_range]
    refine List.map_congr_left fun i _ => ?_
    rcases lt_trichotomy i k with h | rfl | h
    · rw [if_neg h.ne, if_pos h, if_pos (by omega)]
    · rw [if_pos rfl, if_neg (lt_irrefl i), if_pos (by omega), infoRead, if_pos h2]; rfl
    · rw [if_neg h.ne', if_neg (by omega), if_neg (by omega)]
  have hpki : getPadKeyAndNonce P k
      ((List.range (getNumChunks m data.length)).map (srcHashAt P m data)) 0 =
      .ok (pkiAt P m 0 data k) := getPadKeyAndNonce_srcHashes h3 (by omega)
  simp only [encryptDeferred, Act.get_bind, hd, Act.set_bind, hset]
  rw [Act.bind_of_ok (streamEncryptChunk_eq hpki (hs.cipher k (by omega)))]
  simp only [Act.pure_run]
  have hstate : { finishing P m data k with
      deferredChunks := (finishing P m data (k + 1)).deferredChunks }.setDstHash k
        (contentHash P (cipherAt P m 0 data k)) = finishing P m data (k + 1) :=
    setDstHash_eq hinfos rfl
  rw [hstate]

theorem finalizeEncryption_finishing (hs : Sealed P m 0 data) (fuel : ℕ) {k : ℕ} (h2 : k < 2) :
    finalizeEncryption P m fuel (finishing P m data k) =
      some (.ok (some (.chunk ⟨cipherAt P m 0 data k⟩)), finishing P m data (k + 1)) := by
  have hc : (finishing P m data k).isComplete = false := rfl
  have hsrc : (Act.ofExcept (allSrcHashes (finishing P m data k)) : Stream _)
      (finishing P m data k) = some (.ok _, finishing P m data k) :=
    congrArg (fun r => some (r, finishing P m data k)) (allSrcHashes_finishing k)
  simp only [finalizeEncryption, Act.get_bind, hc, Bool.false_eq_true, if_false]
  rw [Act.bind_of_ok hsrc]
  obtain rfl | rfl : k = 0 ∨ k = 1 := by omega
  · rw [Act.bind_of_ok (encryptDeferred_next hs h2)]; rfl
  · rw [Act.bind_of_ok (encryptDeferred_taken Nat.zero_lt_one (by omega))]
    exact Act.bind_of_ok (encryptDeferred_next hs h2)

theorem tryProcessChunks_finishing (fuel k : ℕ) :
    tryProcessChunks P m fuel (finishing P m data k) =
      finalizeEncryption P m fuel (finishing P m data k) := by
  have hloop : processLoop P m (getNumChunks m data.length - getNumChunks m data.length)
      (finishing P m data k) = some (.ok none, finishing P m data k) := by
    rw [Nat.sub_self]; rfl
  have hend : (finishing P m data k).inputComplete = true ∧
      (finishing P m data k).totalChunks ≤ (finishing P m data k).chunksProcessed :=
    ⟨rfl, le_rfl⟩
  rw [tryProcessChunks, Act.get_bind]
  change (processLoop P m (getNumChunks m data.length - getNumChunks m data.length) >>= _ :
    Stream _) _ = _
  rw [Act.bind_of_ok hloop]
  simp only [Act.get_bind, hend, and_self, if_true]

/-- After the last chunk the rest of the input is pulled, and chunk 0 is yielded. -/
theorem nextLoop_end (hs : Sealed P m 0 data) (fuel : ℕ) {rest : List Bytes} {turns : ℕ}
    (h : Filled m data rest (getNumChunks m data.length)) (ht : rest.length < turns) :
    nextLoop P m fuel turns (filling P m data rest (getNumChunks m data.length)) =
      some (.ok (some (.chunk ⟨cipherAt P m 0 data 0⟩)), finishing P m data 1) := by
  have h3 := hs.three_le
  -- there is no chunk left to take
  have hnone : ∀ {rest : List Bytes}, Filled m data rest (getNumChunks m data.length) →
      tryProcessChunks P m fuel (filling P m data rest (getNumChunks m data.length)) =
        some (.ok none, filling P m data rest (getNumChunks m data.length)) := by
    intro rest h
    rcases tryProcessChunks_filling hs fuel h with ⟨-, hf⟩ | ⟨q, hq, hf, hle, -⟩
    · have := hf.le; omega
    · rwa [le_antisymm hf.le hle] at hq
  induction rest generalizing turns with
  | nil =>
    obtain ⟨turns, rfl⟩ := Nat.exists_eq_add_of_lt ht
    rw [nextLoop_filling, Act.bind_of_ok (hnone h)]
    change tryProcessChunks P m fuel
      { filling P m data [] (getNumChunks m data.length) with inputComplete := true } = _
    rw [finishing_zero h3, tryProcessChunks_finishing,
      finalizeEncryption_finishing hs fuel Nat.zero_lt_two]
  | cons d rest ih =>
    obtain ⟨turns, rfl⟩ := Nat.exists_eq_add_of_lt ht
    obtain ⟨hf, hpull⟩ := h.pull
    rw [nextLoop_filling, Act.bind_of_ok (hnone h)]
    change (tryProcessChunks P m fuel >>= _ : Stream _)
      { filling P m data (d :: rest) (getNumChunks m data.length) with
        dataIter := rest
        buffer := (filling P m data (d :: rest) (getNumChunks m data.length)).buffer ++ d } = _
    rw [hpull, Act.bind_of_ok (hnone hf)]
    exact ih hf (by simp only [List.length_cons] at ht ⊢; omega)

theorem nextLoop_finishing (turns : ℕ) {fuel k : ℕ} {r : ChunkOrDataMap} {s : EncryptionStream}
    (h : finalizeEncryption P m fuel (finishing P m data k) = some (.ok (some r), s)) :
    nextLoop P m fuel (turns + 1) (finishing P m data k) = some (.ok (some r), s) := by
  rw [← tryProcessChunks_finishing] at h
  exact Act.bind_of_ok h

/-! ## The chunks of the file -/

theorem nextInternal_eq (fuel : ℕ) (s : EncryptionStream) :
    nextInternal P m fuel s = nextLoop P m fuel (s.dataIter.length + 1) s := by
  rw [nextInternal, Act.get_bind]

theorem chunksNext_chunk {fuel : ℕ} {s s' : EncryptionStream} {c : EncryptedChunk}
    (h : nextLoop P m fuel (s.dataIter.length + 1) s = some (.ok (some (.chunk c)), s')) :
    chunksNext P m fuel s = some (some (.ok (contentHash P c.content, c.content)), s') := by
  rw [chunksNext, nextInternal_eq, h]; rfl

/-- `k` chunks of the file have been yielded: 2 and up, then 0 and 1. -/
inductive Phase (P : Primitives) (m : ℕ) (data : Bytes) (k : ℕ) : EncryptionStream → Prop
  | read {rest : List Bytes} {p : ℕ} (h : Filled m data rest p) (hp : max p 2 = k + 2) :
      Phase P m data k (filling P m data rest p)
  | finish {j : ℕ} (hj : 0 < j) (hj2 : j ≤ 2) (hk : k + 2 = getNumChunks m data.length + j) :
      Phase P m data k (finishing P m data j)

/-- What the stream yields as its `k`th item. -/
def yieldAt (P : Primitives) (m : ℕ) (data : Bytes) (k : ℕ) : XorName × Bytes :=
  (contentHash P (cipherAt P m 0 data ((k + 2) % getNumChunks m data.length)),
    cipherAt P m 0 data ((k + 2) % getNumChunks m data.length))

theorem yieldAt_eq {k i : ℕ} (h : (k + 2) % getNumChunks m data.length = i) :
    yieldAt P m data k = (contentHash P (cipherAt P m 0 data i), cipherAt P m 0 data i) := by
  rw [yieldAt, h]

theorem Phase.next (hs : Sealed P m 0 data) {k : ℕ} {s : EncryptionStream}
    (h : Phase P m data k s) (hk : k < getNumChunks m data.length) (fuel : ℕ) :
    ∃ s', chunksNext P m fuel s = some (some (.ok (yieldAt P m data k)), s') ∧
      Phase P m data (k + 1) s' := by
  have h3 := hs.three_le
  cases h with
  | @read rest p h hp =>
    have hle := h.le
    rcases Nat.lt_or_ge p (getNumChunks m data.length) with hlt | hge
    · obtain ⟨rest', hn, hf⟩ := nextLoop_yield hs fuel h hlt (Nat.lt_succ_self rest.length)
      rw [hp] at hn hf
      rw [yieldAt_eq (Nat.mod_eq_of_lt (by have := hf.le; omega))]
      exact ⟨_, chunksNext_chunk hn, .read hf (by omega)⟩
    · obtain rfl := le_antisymm hle hge
      have hn := nextLoop_end hs fuel h (Nat.lt_succ_self rest.length)
      rw [yieldAt_eq (i := 0) (by rw [← hp, max_eq_left (by omega), Nat.mod_self])]
      exact ⟨_, chunksNext_chunk hn, .finish Nat.zero_lt_one (by omega) (by omega)⟩
  | @finish j hj hj2 hk' =>
    have hn := nextLoop_finishing 0
      (finalizeEncryption_finishing hs fuel (show j < 2 by omega))
    rw [yieldAt_eq (by rw [hk', Nat.add_mod_left, Nat.mod_eq_of_lt (by omega)])]
    exact ⟨_, chunksNext_chunk hn, .finish (Nat.succ_pos j) (by omega) (by omega)⟩

theorem Phase.datamap {k : ℕ} {s : EncryptionStream} (h : Phase P m data k s) :
    s.datamap = none := by
  cases h <;> rfl

theorem pulls_phase (hs : Sealed P m 0 data) (fuel : ℕ) {s : EncryptionStream}
    (h0 : Phase P m data 0 s) : ∀ {k : ℕ}, k ≤ getNumChunks m data.length →
    ∃ s', Pulls (chunksNext P m fuel) s
      ((List.range k).map fun i => .ok (yieldAt P m data i)) s' ∧ Phase P m data k s'
  | 0, _ => ⟨s, .nil, h0⟩
  | k + 1, hk => by
    obtain ⟨s₁, hp, h⟩ := pulls_phase hs fuel h0 (Nat.le_of_succ_le hk)
    obtain ⟨s₂, hn, h⟩ := h.next hs hk fuel
    refine ⟨s₂, ?_, h⟩
    rw [List.range_succ, List.map_append]
    exact hp.append (.cons hn .nil)

variable (P m data) in
/-- All chunks are yielded, the first two last. -/
theorem perm_yieldAt : ((List.range (getNumChunks m data.length)).map fun i =>
    (yieldAt P m data i).2).Perm ((chunksOf P m 0 data).map EncryptedChunk.content) := by
  have hrot : (List.range (getNumChunks m data.length)).rotate 2 =
      (List.range (getNumChunks m data.length)).map
        fun i => (i + 2) % getNumChunks m data.length :=
    List.ext_getElem (by simp) fun i h _ => by simp [List.getElem_rotate]
  have hperm := (List.rotate_perm (List.range (getNumChunks m data.length)) 2).map
    (cipherAt P m 0 data)
  rw [hrot, List.map_map] at hperm
  rw [chunksOf, List.map_map]
  exact hperm

/-! ## The data map -/

theorem allChunkInfos_finishing : allChunkInfos (finishing P m data 2) =
    .ok (infosOf P m 0 data) := by
  have hinfos : (finishing P m data 2).chunkInfos = (infosOf P m 0 data).map some := by
    simp only [finishing, infosOf, List.map_map]
    refine List.map_congr_left fun i _ => ?_
    rcases Nat.lt_or_ge i 2 with h | h
    · rw [if_pos h]; rfl
    · rw [if_neg (by omega), infoRead, if_neg (by omega)]; rfl
  rw [allChunkInfos, hinfos, mapM_eq_ok, List.forall₂_map_left_iff, List.forall₂_same]
  exact fun _ _ => rfl

theorem foldlM_unit (extra : List EncryptedChunk) :
    extra.foldlM (fun _ _ => (.ok () : Except Error Unit)) () = .ok () := by
  induction extra with
  | nil => rfl
  | cons _ _ ih => exact ih

/-- The chunks of the file are the first ones, and those of its map the others. -/
theorem Encrypts.shrinkDataMap {map : DataMap} {chunks : List EncryptedChunk}
    (h : Encrypts P m data 0 map chunks) :
    ∃ fuel extra, Autonomi.shrinkDataMap P m fuel () ⟨infosOf P m 0 data, none⟩
        (fun _ _ _ => .ok ()) = some (.ok ((), map, extra)) ∧
      chunks = chunksOf P m 0 data ++ extra ∧ (extra = [] ∨ 2 ≤ extra.length) := by
  cases h with
  | root hs hN =>
    refine ⟨0, [], shrinkLoop_small ?_, (List.append_nil _).symm, .inl rfl⟩
    rwa [DataMap.len_mk, length_infosOf]
  | @shrink _ _ _ map extra hs hN hb h =>
    obtain ⟨fuel, he⟩ := h.eq_ok
    have hlen := h.three_le_length
    refine ⟨fuel, extra, ?_, rfl, .inr (by omega)⟩
    exact (shrinkLoop_large (by rwa [length_infosOf]) fun _ _ h => (encrypts_of_eq_ok h).infos).2
      ⟨_, map, extra, (), hb, he, foldlM_unit extra, rfl⟩

section Shrink

variable {fuel : ℕ} {map : DataMap} {extra : List EncryptedChunk}

/-- The state when the data map is there. -/
theorem finalizeDataMap_finishing (hshrink : shrinkDataMap P m fuel () ⟨infosOf P m 0 data, none⟩
      (fun _ _ _ => .ok ()) = some (.ok ((), map, extra))) :
    finalizeDataMap P m fuel (finishing P m data 2) =
      match extra with
      | [] => some (.ok (.dataMap map), shrinking P m data map [] 0)
      | c :: _ => some (.ok (.chunk c), { shrinking P m data map extra 1 with isComplete := false }) := by
  have hinfos : (Act.ofExcept (allChunkInfos (finishing P m data 2)) : Stream _)
      (finishing P m data 2) = some (.ok _, finishing P m data 2) :=
    congrArg (fun r => some (r, finishing P m data 2)) allChunkInfos_finishing
  simp only [finalizeDataMap, Act.get_bind]
  rw [Act.bind_of_ok hinfos, sortByIndex_eq indexed_infosOf, DataMap.new_eq indexed_infosOf,
    Act.bind_of_ok (Act.ofRun_run hshrink)]
  simp only [Act.modify_bind, Act.get_bind]
  cases extra <;> rfl

theorem finalizeEncryption_two (s : EncryptionStream) (r : ChunkOrDataMap)
    (h : finalizeDataMap P m fuel (finishing P m data 2) = some (.ok r, s)) :
    finalizeEncryption P m fuel (finishing P m data 2) = some (.ok (some r), s) := by
  have hc : (finishing P m data 2).isComplete = false := rfl
  have hsrc : (Act.ofExcept (allSrcHashes (finishing P m data 2)) : Stream _)
      (finishing P m data 2) = some (.ok _, finishing P m data 2) :=
    congrArg (fun r => some (r, finishing P m data 2)) (allSrcHashes_finishing 2)
  simp only [finalizeEncryption, Act.get_bind, hc, Bool.false_eq_true, if_false]
  rw [Act.bind_of_ok hsrc, Act.bind_of_ok (encryptDeferred_taken Nat.zero_lt_two Nat.zero_lt_two)]
  change (encryptDeferred P _ 1 >>= _ : Stream _) _ = _
  rw [Act.bind_of_ok (encryptDeferred_taken Nat.one_lt_two Nat.one_lt_two)]
  exact Act.bind_of_ok h

/-- The chunks of the data map are yielded one by one. -/
theorem drains_shrinking : ∀ {rest : List EncryptedChunk} {k : ℕ}, rest = extra.drop k →
    k ≤ extra.length →
    Drains (chunksNext P m fuel) (shrinking P m data map extra k)
      (rest.map fun c => .ok (contentHash P c.content, c.content))
      (shrinking P m data map extra extra.length)
  | [], k, hrest, hk => by
    obtain rfl : k = extra.length := le_antisymm hk (List.drop_eq_nil_iff.1 hrest.symm)
    refine ⟨_, .nil, ?_⟩
    have hnone : extra[extra.length]? = none := List.getElem?_eq_none le_rfl
    have hint : nextInternal P m fuel (shrinking P m data map extra extra.length) =
        some (.ok (some (.dataMap map)), shrinking P m data map extra extra.length) := by
      have hc : (shrinking P m data map extra extra.length).isComplete = true :=
        decide_eq_true le_rfl
      have hs : (shrinking P m data map extra extra.length).shrinkingChunks[
          (shrinking P m data map extra extra.length).shrinkingChunkIndex]? = none := hnone
      simp only [nextInternal_eq, nextLoop, Act.get_bind, hs, hc, if_true]; rfl
    rw [chunksNext, hint]; rfl
  | c :: rest, k, hrest, hk => by
    have hlt : k < extra.length := by
      by_contra h
      rw [List.drop_eq_nil_of_le (by omega)] at hrest; cases hrest
    obtain ⟨hc, hrest⟩ := List.cons_eq_cons.1 (hrest.trans (List.drop_eq_getElem_cons hlt))
    have hsome : extra[k]? = some c := by rw [hc]; exact List.getElem?_eq_getElem hlt
    obtain ⟨s₁, hp, hn⟩ := drains_shrinking hrest hlt
    refine ⟨s₁, .cons (chunksNext_chunk ?_) hp, hn⟩
    have hs : (shrinking P m data map extra k).shrinkingChunks[
        (shrinking P m data map extra k).shrinkingChunkIndex]? = some c := hsome
    have hi : (shrinking P m data map extra k).isComplete = false := decide_eq_false (by omega)
    simp only [nextLoop, Act.get_bind, hs, Act.set_bind, hi, Bool.false_or]; rfl

/-- What is left after the chunks of the file. -/
theorem drains_finishing (hshrink : shrinkDataMap P m fuel () ⟨infosOf P m 0 data, none⟩
      (fun _ _ _ => .ok ()) = some (.ok ((), map, extra)))
    (hlen : extra = [] ∨ 2 ≤ extra.length) :
    Drains (chunksNext P m fuel) (finishing P m data 2)
      (extra.map fun c => .ok (contentHash P c.content, c.content))
      (shrinking P m data map extra extra.length) := by
  have hmap := finalizeDataMap_finishing hshrink
  rcases extra with _ | ⟨c, extra⟩
  · have hint : nextInternal P m fuel (finishing P m data 2) =
        some (.ok (some (.dataMap map)), shrinking P m data map [] 0) :=
      (nextInternal_eq fuel _).trans (nextLoop_finishing 0 (finalizeEncryption_two _ _ hmap))
    refine ⟨_, .nil, ?_⟩
    rw [chunksNext, hint]; rfl
  · have h2 : 2 ≤ (c :: extra).length := hlen.resolve_left (List.cons_ne_nil c extra)
    have hstate : { shrinking P m data map (c :: extra) 1 with isComplete := false } =
        shrinking P m data map (c :: extra) 1 := by
      rw [shrinking, decide_eq_false (show ¬ (c :: extra).length ≤ 1 by omega)]
    rw [hstate] at hmap
    obtain ⟨s₁, hp, hn⟩ : Drains (chunksNext P m fuel) (shrinking P m data map (c :: extra) 1) _ _ :=
      drains_shrinking rfl (by omega)
    exact ⟨s₁, .cons (chunksNext_chunk (nextLoop_finishing 0 (finalizeEncryption_two _ _ hmap))) hp,
      hn⟩

variable (P m data extra) in
/-- What the stream yields: the chunks of the file, and those of its data map. -/
def streamItems : List (XorName × Bytes) :=
  (List.range (getNumChunks m data.length)).map (yieldAt P m data) ++
    extra.map fun c => (contentHash P c.content, c.content)

theorem perm_streamItems : ((streamItems P m data extra).map Prod.snd).Perm
    ((chunksOf P m 0 data ++ extra).map EncryptedChunk.content) := by
  rw [streamItems, List.map_append, List.map_append, List.map_map, List.map_map]
  exact (perm_yieldAt P m data).append_right _

/-- A stream at its start yields them all. -/
theorem Phase.drains {stream : EncryptionStream} (h0 : Phase P m data 0 stream) (hs : Sealed P m 0 data)
    (hshrink : shrinkDataMap P m fuel () ⟨infosOf P m 0 data, none⟩ (fun _ _ _ => .ok ()) =
      some (.ok ((), map, extra))) (hlen : extra = [] ∨ 2 ≤ extra.length) :
    Drains (chunksNext P m fuel) stream ((streamItems P m data extra).map .ok)
      (shrinking P m data map extra extra.length) := by
  obtain ⟨s, hpulls, hphase⟩ := pulls_phase hs fuel h0 le_rfl
  obtain rfl : s = finishing P m data 2 := by
    have := hs.three_le
    cases hphase with
    | read hf hp => have := hf.le; omega
    | finish _ _ hk => rw [show 2 = _ from Nat.add_left_cancel hk]
  rw [streamItems, List.map_append, List.map_map, List.map_map]
  exact hpulls.drains (drains_finishing hshrink hlen)

end Shrink

/-! ## The whole run -/

/-- The stream of `stream_encrypt` is at its start. -/
theorem streamEncrypt_eq_ok (hm : 0 < m) (h3 : 3 ≤ data.length) {pieces : List Bytes}
    (hp : pieces.flatten = data) :
    ∃ stream, streamEncrypt m data.length pieces = .ok stream ∧ Phase P m data 0 stream := by
  have hN := three_le_getNumChunks hm h3
  have hrep : ∀ {α : Type} (n : ℕ) (f : ℕ → α), List.replicate n none =
      (List.range n).map fun i => if i < 0 then some (f i) else none := by
    intro α n f
    rw [← List.length_range (n := n), ← List.map_const', List.length_range]; rfl
  have hmin : ¬ data.length < minEncryptableBytes := by
    simp only [minEncryptableBytes, minChunkSize]; omega
  have hflat : avail data pieces = 0 := by rw [avail, hp, Nat.sub_self]
  refine ⟨filling P m data pieces 0, ?_,
    .read ⟨by rw [hp], Nat.zero_le _, by rw [cut_zero hm h3]; exact Nat.zero_le _⟩ rfl⟩
  rw [streamEncrypt, EncryptionStream.new, if_neg hmin]
  simp only [if_neg (show ¬ getNumChunks m data.length < 3 by omega)]
  rw [filling, hflat, cut_zero hm h3, ← hrep _ (srcHashAt P m data), ← hrep _ (infoRead P m data)]
  simp [slice]

/-- **Streaming encryption refines batch encryption**: however the file is cut into pieces, the
    stream yields the chunks of `encrypt`, those of the file before those of its data map, and
    ends with the map of `encrypt`, which is not there before the chunks of the file are.
    (`hm'` is when `encrypt` returns, by `encrypt_returns_iff`.) -/
theorem streamEncrypt_encrypt (hP : P.Total) (hm : 0 < m) (h3 : 3 ≤ data.length)
    (hd : data.length ≤ isizeMax) (hm' : getNumChunks m data.length ≤ 3 ∨ 110 ≤ m)
    {pieces : List Bytes} (hp : pieces.flatten = data) :
    ∃ fuel map chunks, encrypt P m fuel data = some (.ok (map, chunks)) ∧
      ∃ fuel' stream, ∃ items : List (XorName × Bytes), ∃ stream',
        streamEncrypt m data.length pieces = .ok stream ∧
        Drains (chunksNext P m fuel') stream (items.map .ok) stream' ∧
        stream'.datamap = some map ∧
        (items.map Prod.snd).Perm (chunks.map EncryptedChunk.content) ∧
        (∀ item ∈ items, item.1 = contentHash P item.2) ∧
        ((items.take (getNumChunks m data.length)).map Prod.snd).Perm
          ((chunks.take (getNumChunks m data.length)).map EncryptedChunk.content) ∧
        ∀ items' s, Pulls (chunksNext P m fuel') stream items' s →
          items'.length ≤ getNumChunks m data.length → s.datamap = none := by
  have hex : ∃ map chunks, Encrypts P m data 0 map chunks := exists_encrypts hP h3 hd hm hm'
  obtain ⟨map, chunks, h⟩ := hex
  obtain ⟨fuel, henc⟩ := h.eq_ok
  have hs := h.sealed
  obtain ⟨fuel', extra, hshrink, rfl, hlen⟩ := h.shrinkDataMap
  obtain ⟨stream, hstream, h0⟩ := streamEncrypt_eq_ok (P := P) hm h3 hp
  have hlen₁ : ((List.range (getNumChunks m data.length)).map (yieldAt P m data)).length =
    getNumChunks m data.length := by simp
  have hlen₂ : (chunksOf P m 0 data).length = getNumChunks m data.length := by simp [chunksOf]
  refine ⟨fuel, map, _, henc, fuel', stream, streamItems P m data extra,
    shrinking P m data map extra extra.length, hstream, h0.drains hs hshrink hlen, rfl,
    perm_streamItems, ?_, ?_, ?_⟩
  · intro item hitem
    rcases List.mem_append.1 hitem with hitem | hitem
    · obtain ⟨k, -, rfl⟩ := List.mem_map.1 hitem; rfl
    · obtain ⟨c, -, rfl⟩ := List.mem_map.1 hitem; rfl
  · rw [streamItems, List.take_left' hlen₁, List.take_left' hlen₂, List.map_map]
    exact perm_yieldAt P m data
  · intro items' s hpull hle
    obtain ⟨s', hpull', hphase⟩ := pulls_phase hs fuel' h0 hle
    obtain ⟨-, rfl⟩ := hpull.unique hpull' (by simp)
    exact hphase.datamap

/-- A file of four chunks, with an empty piece and one of more than a chunk. -/
theorem streamEncrypt_encrypt_331 : ∃ fuel map chunks,
    encrypt clear 110 fuel (List.replicate 50 7 ++ List.replicate 281 8) =
      some (.ok (map, chunks)) ∧
    ∃ fuel' stream, ∃ items : List (XorName × Bytes), ∃ stream',
      streamEncrypt 110 331 [List.replicate 50 7, [], List.replicate 281 8] = .ok stream ∧
      Drains (chunksNext clear 110 fuel') stream (items.map .ok) stream' ∧
      stream'.datamap = some map ∧
      (items.map Prod.snd).Perm (chunks.map EncryptedChunk.content) := by
  have hflat : ∀ a b : Bytes, [a, [], b].flatten = a ++ b := fun a b => by simp
  have hlen : (List.replicate 50 (7 : UInt8) ++ List.replicate 281 8).length = 331 := by
    rw [List.length_append, List.length_replicate, List.length_replicate]
  obtain ⟨fuel, map, chunks, he, fuel', stream, items, stream', hs, hd, hmap, hperm, -⟩ :=
    streamEncrypt_encrypt clear_total (show 0 < 110 by decide) (by rw [hlen]; decide)
      (by rw [hlen]; decide) (.inr le_rfl) (hflat (List.replicate 50 7) (List.replicate 281 8))
  rw [hlen] at hs
  exact ⟨fuel, map, chunks, he, fuel', stream, items, stream', hs, hd, hmap, hperm⟩

end Autonomi
