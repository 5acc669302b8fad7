/-
  The encryption stream over an input that does not have the declared length
  (`self_encryption/src/stream_encrypt.rs`).

  Here only the lengths count: the stream is declared for `n` bytes, and its
  input has `total`.  Each lemma says what a call does at which of the `n`
  bytes' chunks.
-/
import Autonomi.Lib.Post
import Autonomi.SelfEncryption.StreamRefine

namespace Autonomi

open Lib EncryptionStream

variable {P : Primitives} {m n total p k : ℕ} {s : EncryptionStream}

/-! ## The chunks that are read -/

/-- Chunks `0` to `p - 1` are read, and `k` of the deferred ones have been yielded. -/
structure Reading (m n total p k : ℕ) (s : EncryptionStream) : Prop where
  dataSize : s.dataSize = n
  totalChunks : s.totalChunks = getNumChunks m n
  processed : s.chunksProcessed = p
  le : p ≤ getNumChunks m n
  -- a byte is in a chunk that is read, in the buffer, or still to come
  fed : min (cut m n p) total + s.buffer.length + s.dataIter.flatten.length = total
  begun : ∀ q < p, cut m n q < total
  complete : s.inputComplete = true → s.dataIter = []
  early : k = 0 ∨ p = getNumChunks m n
  yielded : k ≤ 2
  lengthHashes : s.srcHashes.length = getNumChunks m n
  hashes : ∀ i < p, ∃ h, s.srcHashes[i]? = some (some h)
  lengthInfos : s.chunkInfos.length = getNumChunks m n
  infos : ∀ i < p, ∃ c, s.chunkInfos[i]? = some (some c) ∧ c.index = i
  lengthDeferred : s.deferredChunks.length = 2
  deferred : ∀ i < 2, (s.deferredChunks[i]?.join).isSome ↔ i < p ∧ k ≤ i
  incomplete : s.isComplete = false
  unmapped : s.finalDatamap = none
  unshrunk : s.shrinkingChunks = []
  unindexed : s.shrinkingChunkIndex = 0

theorem reading_new (hm : 0 < m) (h3 : 3 ≤ n) (pieces : List Bytes) :
    ∃ stream, streamEncrypt m n pieces = .ok stream ∧
      Reading m n pieces.flatten.length 0 0 stream := by
  have hT := three_le_getNumChunks hm h3
  have hmin : ¬ n < minEncryptableBytes := by
    simp only [minEncryptableBytes, minChunkSize]; omega
  refine ⟨_, by rw [streamEncrypt, EncryptionStream.new, if_neg hmin]
                simp only [if_neg (show ¬ getNumChunks m n < 3 by omega)]; rfl, ?_⟩
  constructor <;> try rfl
  · exact Nat.zero_le _
  · simp [cut_zero hm h3]
  · exact fun q hq => absurd hq (Nat.not_lt_zero q)
  · intro h
    cases h
  · exact .inl rfl
  · exact Nat.zero_le 2
  · exact List.length_replicate
  · exact fun i hi => absurd hi (Nat.not_lt_zero i)
  · exact List.length_replicate
  · exact fun i hi => absurd hi (Nat.not_lt_zero i)
  · intro i hi
    obtain rfl | rfl : i = 0 ∨ i = 1 := by omega
    · simp
    · simp

/-- An entry that is set joins the known ones. -/
theorem known_set {α : Type} {Q : ℕ → α → Prop} {l : List (Option α)} {a : α} (hp : p < l.length)
    (h : ∀ i < p, ∃ b, l[i]? = some (some b) ∧ Q i b) (ha : Q p a) :
    ∀ i < p + 1, ∃ b, (l.set p (some a))[i]? = some (some b) ∧ Q i b := by
  intro i hi
  rcases Nat.lt_or_ge i p with hlt | hge
  · rw [List.getElem?_set_ne (by omega)]
    exact h i hlt
  · obtain rfl : i = p := by omega
    exact ⟨a, List.getElem?_set_self hp, ha⟩

/-- The second hash of an info is not its index. -/
theorem known_setDstHash {i : ℕ} {h : XorName}
    (hs : ∀ j < p, ∃ c, s.chunkInfos[j]? = some (some c) ∧ c.index = j) :
    ∀ j < p, ∃ c, (s.setDstHash i h).chunkInfos[j]? = some (some c) ∧ c.index = j := by
  intro j hj
  obtain ⟨c, hc, hindex⟩ := hs j hj
  simp only [setDstHash, List.getElem?_modify, hc]
  by_cases hij : i = j
  · simp only [if_pos hij]
    exact ⟨_, rfl, hindex⟩
  · simp only [if_neg hij]
    exact ⟨c, rfl, hindex⟩

theorem Reading.setDstHash (h : Reading m n total p k s) (i : ℕ) (hash : XorName) :
    Reading m n total p k (s.setDstHash i hash) :=
  { h with
    lengthInfos := (List.length_modify ..).trans h.lengthInfos
    infos := known_setDstHash h.infos }

/-! ## Encryption -/

/-- There is a key for each of three chunks or more. -/
theorem getPadKeyAndNonce_isOk {hashes : List XorName} {i : ℕ} (l : ℕ) (h3 : 3 ≤ hashes.length)
    (hi : i < hashes.length) : ∃ pki, getPadKeyAndNonce P i hashes l = .ok pki := by
  obtain ⟨n1, n2, hn, h1, h2⟩ : ∃ n1 n2, getN1N2 i hashes.length = .ok (n1, n2) ∧
      n1 < hashes.length ∧ n2 < hashes.length := by
    unfold getN1N2
    rw [if_neg (by omega), if_neg (by omega)]
    rcases i with _ | _ | i
    · exact ⟨_, _, rfl, by omega, by omega⟩
    · exact ⟨_, _, rfl, by omega, by omega⟩
    · exact ⟨_, _, rfl, by omega, by omega⟩
  simp only [getPadKeyAndNonce, bind_eq_ok, okOr_eq_ok]
  exact ⟨_, _, hn, _, List.getElem?_eq_getElem hi, _, List.getElem?_eq_getElem h1, _,
    List.getElem?_eq_getElem h2, rfl⟩

/-- The stream's own encryption changes one info, and fails only where a primitive does. -/
theorem post_streamEncryptChunk {hashes : List XorName} {i : ℕ} (chunkData : Bytes)
    (h3 : 3 ≤ hashes.length) (hi : i < hashes.length) :
    Act.Post (streamEncryptChunk P hashes i chunkData) s
      (fun _ s' => ∃ hash, s' = s.setDstHash i hash) (fun _ _ => ¬ P.Total) := by
  obtain ⟨pki, hpki⟩ := getPadKeyAndNonce_isOk (P := P) 0 h3 hi
  refine Act.post_bind (Act.post_ofExcept (fun content _ => ?_) fun e he hP => ?_)
  · exact Act.post_bind (Act.post_modify (Act.post_pure ⟨_, rfl⟩))
  · obtain ⟨y, hy⟩ := encryptChunk_of_total hP chunkData pki
    rw [hpki] at he
    exact nomatch hy.symm.trans he

/-! ## One turn of the loop -/

/-- The chunk is read, and its bytes leave the buffer. -/
theorem Reading.advance (h : Reading m n total p 0 s) (hp : p < getNumChunks m n) {size : ℕ}
    (hsize : size ≤ s.buffer.length) {hash : XorName} {infos : List (Option ChunkInfo)}
    {deferred : List (Option Bytes)} (hbegun : cut m n p < total)
    (hfed : min (cut m n (p + 1)) total = cut m n p + size)
    (hlen : infos.length = getNumChunks m n)
    (hinfos : ∀ i < p + 1, ∃ c, infos[i]? = some (some c) ∧ c.index = i)
    (hlen' : deferred.length = 2)
    (hdeferred : ∀ i < 2, (deferred[i]?.join).isSome ↔ i < p + 1) :
    Reading m n total (p + 1) 0 (advance 0 size { s with
      srcHashes := s.srcHashes.set p (some hash)
      chunkInfos := infos
      deferredChunks := deferred }) where
  dataSize := h.dataSize
  totalChunks := h.totalChunks
  processed := congrArg Nat.succ h.processed
  le := hp
  fed := by
    have hfed' := h.fed
    rw [min_eq_left hbegun.le] at hfed'
    simp only [EncryptionStream.advance, List.take_zero, List.nil_append, List.length_drop]
    omega
  begun := by
    intro q hq
    exact (cut_mono m n (Nat.le_of_lt_succ hq)).trans_lt hbegun
  complete := h.complete
  early := .inl rfl
  yielded := Nat.zero_le 2
  lengthHashes := List.length_set.trans h.lengthHashes
  hashes := by
    intro i hi
    have hlen : p < s.srcHashes.length := by rw [h.lengthHashes]; exact hp
    obtain ⟨b, hb, -⟩ := known_set (Q := fun _ _ => True) (a := hash) hlen
      (fun i hi => (h.hashes i hi).imp fun _ hb => ⟨hb, trivial⟩) trivial i hi
    exact ⟨b, hb⟩
  lengthInfos := hlen
  infos := hinfos
  lengthDeferred := hlen'
  deferred := by
    intro i hi
    exact (hdeferred i hi).trans ⟨fun h => ⟨h, Nat.zero_le i⟩, And.left⟩
  incomplete := h.incomplete
  unmapped := h.unmapped
  unshrunk := h.unshrunk
  unindexed := h.unindexed

/-- The pieces that are still to come, and whether their end has been seen, do not change. -/
def SameInput (s s' : EncryptionStream) : Prop :=
  s'.inputComplete = s.inputComplete ∧ s'.dataIter = s.dataIter

theorem Reading.post_processChunkData (hm : 0 < m) (h3 : 3 ≤ n) (h : Reading m n total p 0 s)
    (hp : p < getNumChunks m n) {chunkData : Bytes} (hsize : chunkData.length ≤ s.buffer.length)
    (hbegun : cut m n p < total)
    (hfed : min (cut m n (p + 1)) total = cut m n p + chunkData.length) :
    Act.Post (processChunkData P 0 p chunkData) s (fun turn s' =>
        turn ≠ .stop ∧ Reading m n total (p + 1) 0 s' ∧ SameInput s s')
      (fun _ _ => ¬ P.Total) := by
  have hT := three_le_getNumChunks hm h3
  have hhashes : ¬ s.srcHashes.length ≤ p := by rw [h.lengthHashes]; omega
  have hinfos : p < s.chunkInfos.length := by rw [h.lengthInfos]; exact hp
  have hset := known_set (Q := fun i c => c.index = i)
    (a := ⟨p, contentHash P [], contentHash P chunkData, chunkData.length⟩) hinfos h.infos rfl
  have hlen : ∀ a, (s.chunkInfos.set p a).length = getNumChunks m n := fun a =>
    List.length_set.trans h.lengthInfos
  have hrecord : recordChunk P p chunkData s = some (.ok (), { s with
      srcHashes := s.srcHashes.set p (some (contentHash P chunkData))
      chunkInfos := s.chunkInfos.set p
        (some ⟨p, contentHash P [], contentHash P chunkData, chunkData.length⟩) }) := by
    simp only [recordChunk, Act.get_bind, if_neg hhashes, Act.set_bind]
    rw [if_neg (Nat.not_le_of_lt hinfos)]
    rfl
  -- a chunk that is not deferred leaves the deferred ones as they are
  have hrest : 2 ≤ p → ∀ i < 2, (s.deferredChunks[i]?.join).isSome ↔ i < p + 1 := by
    intro h2 i hi
    rw [h.deferred i hi]
    omega
  refine Act.post_bind (.inl ⟨_, _, hrecord, Act.post_get ?_⟩)
  by_cases h2 : p < 2
  · rw [if_pos h2]
    have hdefer : p < s.deferredChunks.length := by rw [h.lengthDeferred]; exact h2
    refine Act.post_bind (Act.post_get ?_)
    rw [if_neg (Nat.not_le_of_lt hdefer)]
    refine Act.post_set (Act.post_bind (Act.post_modify (Act.post_pure ⟨by simp, ?_, rfl, rfl⟩)))
    refine h.advance hp hsize hbegun hfed (hlen _) hset (List.length_set.trans h.lengthDeferred) ?_
    intro i hi
    rcases eq_or_ne i p with rfl | hne
    · rw [List.getElem?_set_self hdefer]
      simp
    · rw [List.getElem?_set_ne hne.symm, h.deferred i hi]
      omega
  · rw [if_neg h2]
    have h2 : 2 ≤ p := Nat.le_of_not_lt h2
    split_ifs
    · refine Act.post_bind ((post_streamEncryptChunk chunkData ?_ ?_).mono ?_)
      · simpa [knownHashes, h.totalChunks] using hT
      · simpa [knownHashes, h.totalChunks] using hp
      rintro chunk _ ⟨hash, rfl⟩
      refine Act.post_bind (Act.post_modify (Act.post_pure ⟨by simp, ?_, rfl, rfl⟩))
      exact h.advance hp hsize hbegun hfed ((List.length_modify ..).trans (hlen _))
        (known_setDstHash hset) h.lengthDeferred (hrest h2)
    · refine Act.post_bind (Act.post_modify (Act.post_pure ⟨by simp, ?_, rfl, rfl⟩))
      exact h.advance hp hsize hbegun hfed (hlen _) hset h.lengthDeferred (hrest h2)

/-- A turn reads the next chunk or stops; at the end of the input it stops only if there are no
    bytes left for that chunk. -/
def Turned (m n total p : ℕ) (s : EncryptionStream) : Turn → EncryptionStream → Prop
  | .stop, s' => s' = s ∧ (s.inputComplete = true → total ≤ cut m n p)
  | _, s' => Reading m n total (p + 1) 0 s' ∧ SameInput s s'

theorem Reading.post_processTurn (hm : 0 < m) (h3 : 3 ≤ n) (h : Reading m n total p 0 s)
    (hp : p < getNumChunks m n) :
    Act.Post (processTurn P m) s (Turned m n total p s) (fun _ _ => ¬ P.Total) := by
  have hlt := cut_lt_cut_succ hm h3 hp
  have hpos : getStartEndPositions m s.dataSize p = (cut m n p, cut m n (p + 1)) := by
    rw [h.dataSize, getStartEndPositions_eq hm h3 hp]
  have hbytes : s.getProcessedBytes m = cut m n p := by
    rw [getProcessedBytes_eq hm h3 h.dataSize (by rw [h.processed]; exact h.le), h.processed]
  have hfed := h.fed
  refine Act.post_get ?_
  simp only [h.processed, hpos, hbytes, Nat.sub_self, Nat.zero_add, Nat.sub_zero]
  -- what is taken are bytes that have come
  have hread : ∀ size, size ≤ s.buffer.length → 0 < size →
      min (cut m n (p + 1)) total = cut m n p + size →
      Act.Post (processChunkData P 0 p (slice s.buffer 0 size)) s (Turned m n total p s)
        (fun _ _ => ¬ P.Total) := by
    intro size hsize hpos hnext
    have hlen : (slice s.buffer 0 size).length = size := by
      rw [length_slice, min_eq_left hsize, Nat.sub_zero]
    refine (h.post_processChunkData hm h3 hp (by rwa [hlen]) (by omega) (by rwa [hlen])).mono ?_
    rintro turn s' ⟨hturn, hs'⟩
    cases turn with
    | stop => exact absurd rfl hturn
    | next => exact hs'
    | yield => exact hs'
  have hstop : (s.inputComplete = true → total ≤ cut m n p) →
      Act.Post (pure .stop : Stream Turn) s (Turned m n total p s) (fun _ _ => ¬ P.Total) :=
    fun hend => Act.post_pure ⟨rfl, hend⟩
  cases hin : s.inputComplete with
  | true =>
    rw [h.complete hin, List.flatten_nil, List.length_nil] at hfed
    rw [if_pos (.inr rfl)]
    simp only [if_true]
    split_ifs with h0 hle
    · exact hstop fun _ => by omega
    · exact hread _ (min_le_right _ _) (Nat.pos_of_ne_zero h0) (by omega)
    · exact absurd (min_le_right _ _) hle
  | false =>
    simp only [Bool.false_eq_true, or_false, if_false]
    split_ifs with hle h0
    · omega
    · exact hread _ hle (by omega) (by omega)
    · exact hstop (by rw [hin]; exact nofun)

/-! ## The loop -/

/-- The loop goes on to chunk `q`; without a chunk to yield it has stopped there. -/
def Looped (m n total p : ℕ) (s : EncryptionStream) (chunk : Option EncryptedChunk)
    (s' : EncryptionStream) : Prop :=
  ∃ q, p ≤ q ∧ Reading m n total q 0 s' ∧ SameInput s s' ∧
    (chunk = none → q = getNumChunks m n ∨ (s.inputComplete = true → total ≤ cut m n q)) ∧
    (chunk ≠ none → p < q)

theorem Reading.post_processLoop (hm : 0 < m) (h3 : 3 ≤ n) {turns : ℕ}
    (h : Reading m n total p 0 s) (ht : getNumChunks m n - p ≤ turns) :
    Act.Post (processLoop P m turns) s (Looped m n total p s) (fun _ _ => ¬ P.Total) := by
  have hle := h.le
  induction turns generalizing p s with
  | zero => exact Act.post_pure ⟨p, le_rfl, h, ⟨rfl, rfl⟩, fun _ => .inl (by omega), fun h => absurd rfl h⟩
  | succ turns ih =>
    refine Act.post_get ?_
    rw [h.processed, h.totalChunks]
    split_ifs with hp
    swap
    · exact Act.post_pure ⟨p, le_rfl, h, ⟨rfl, rfl⟩, fun _ => .inl (by omega), fun h => absurd rfl h⟩
    refine Act.post_bind ((h.post_processTurn hm h3 hp).mono ?_)
    intro turn s₁ hturn
    cases turn with
    | next =>
      obtain ⟨h₁, hin, hiter⟩ := hturn
      refine (ih h₁ (by omega) h₁.le).mono ?_
      rintro chunk s' ⟨q, hq, h', ⟨hin', hiter'⟩, hnone, hsome⟩
      exact ⟨q, by omega, h', ⟨hin'.trans hin, hiter'.trans hiter⟩, by rwa [hin] at hnone,
        fun hc => by have := hsome hc; omega⟩
    | stop =>
      obtain ⟨rfl, hend⟩ := hturn
      exact Act.post_pure ⟨p, le_rfl, h, ⟨rfl, rfl⟩, fun _ => .inr hend, fun h => absurd rfl h⟩
    | yield chunk =>
      exact Act.post_pure ⟨p + 1, Nat.le_succ p, hturn.1, hturn.2, nofun, fun _ => Nat.lt_succ_self p⟩

/-! ## The deferred chunks -/

theorem Reading.exists_srcHashes (h : Reading m n total (getNumChunks m n) k s) :
    ∃ hashes, allSrcHashes s = .ok hashes ∧ hashes.length = getNumChunks m n := by
  obtain ⟨hashes, hok⟩ : ∃ hashes, allSrcHashes s = .ok hashes := by
    refine mapM_isOk ?_
    rintro ⟨o, i⟩ hx
    have ho := List.mem_zipIdx_iff_getElem?.1 hx
    have hi : i < getNumChunks m n := by
      rw [← h.lengthHashes]
      exact (List.getElem?_eq_some_iff.1 ho).1
    obtain ⟨hash, hhash⟩ := h.hashes i hi
    obtain rfl : some hash = o := Option.some.inj (hhash.symm.trans ho)
    exact ⟨hash, rfl⟩
  refine ⟨hashes, hok, ?_⟩
  rw [← (mapM_eq_ok.1 hok).length_eq, List.length_zipIdx, h.lengthHashes]

/-- The infos are in the order of their indices. -/
theorem Reading.exists_chunkInfos (h : Reading m n total (getNumChunks m n) k s) :
    ∃ infos, allChunkInfos s = .ok infos ∧ infos.length = getNumChunks m n ∧ Indexed infos := by
  obtain ⟨infos, hok⟩ : ∃ infos, allChunkInfos s = .ok infos := by
    refine mapM_isOk fun o ho => ?_
    obtain ⟨i, hi, rfl⟩ := List.getElem_of_mem ho
    obtain ⟨c, hc, -⟩ := h.infos i (by rwa [← h.lengthInfos])
    exact ⟨c, by rw [(List.getElem?_eq_some_iff.1 hc).2]; rfl⟩
  have hall := mapM_eq_ok.1 hok
  have hlen : infos.length = getNumChunks m n := by rw [← hall.length_eq, h.lengthInfos]
  have hindex : ∀ i (hi : i < infos.length), infos[i].index = i := by
    intro i hi
    obtain ⟨c, hc, hindex⟩ := h.infos i (by rwa [← hlen])
    obtain ⟨hi', hget⟩ := List.getElem?_eq_some_iff.1 hc
    have hsome := List.forall₂_iff_get.1 hall |>.2 i hi' hi
    rw [List.get_eq_getElem, List.get_eq_getElem, hget, okOr_eq_ok] at hsome
    rw [← Option.some.inj hsome]
    exact hindex
  refine ⟨infos, hok, hlen, List.pairwise_iff_getElem.2 fun i j hi hj hij => ?_⟩
  rwa [hindex i hi, hindex j hj]

/-- A deferred chunk that is still there is encrypted and yielded. -/
theorem Reading.post_encryptDeferred (h : Reading m n total (getNumChunks m n) k s)
    (h3 : 3 ≤ getNumChunks m n) (h2 : k < 2) {hashes : List XorName}
    (hlen : hashes.length = getNumChunks m n) :
    Act.Post (encryptDeferred P hashes k) s (fun chunk s' =>
        chunk ≠ none ∧ Reading m n total (getNumChunks m n) (k + 1) s')
      (fun _ _ => ¬ P.Total) := by
  obtain ⟨chunkData, hdata⟩ := Option.isSome_iff_exists.1
    ((h.deferred k h2).2 ⟨by omega, le_rfl⟩)
  have hk : k < s.deferredChunks.length := by rw [h.lengthDeferred]; exact h2
  have htaken : Reading m n total (getNumChunks m n) (k + 1)
      { s with deferredChunks := s.deferredChunks.set k none } :=
    { h with
      early := .inr rfl
      yielded := h2
      lengthDeferred := List.length_set.trans h.lengthDeferred
      deferred := by
        intro i hi
        rcases eq_or_ne i k with rfl | hne
        · simp only [List.getElem?_set_self hk]
          simp
        · simp only [List.getElem?_set_ne hne.symm]
          rw [h.deferred i hi]
          omega }
  refine Act.post_get ?_
  rw [hdata]
  refine Act.post_bind (Act.post_set (Act.post_bind
    ((post_streamEncryptChunk chunkData (by rwa [hlen]) (by omega)).mono ?_)))
  rintro chunk _ ⟨hash, rfl⟩
  exact Act.post_pure ⟨nofun, htaken.setDstHash k hash⟩

theorem Reading.encryptDeferred_taken (h : Reading m n total p k s) {i : ℕ} (hi : i < k) (h2 : i < 2)
    {hashes : List XorName} : encryptDeferred P hashes i s = some (.ok none, s) := by
  have hd : s.deferredChunks[i]?.join = none := by
    rw [← Option.not_isSome_iff_eq_none, h.deferred i h2]
    omega
  simp only [encryptDeferred, Act.get_bind, hd, Act.pure_run]

/-! ## The calls -/

/-- How a call ends from a state in which `p` chunks are read and `k` deferred ones yielded: with the
    next chunk, where a primitive fails, with nothing in a state with `stuck`, or as the data map
    comes out. -/
inductive Called (P : Primitives) (m n total fuel p k : ℕ) (stuck : EncryptionStream → Prop)
    (s : EncryptionStream) (x : Stream (Option ChunkOrDataMap)) : Prop
  | chunk {c : EncryptedChunk} {s' : EncryptionStream} {q j : ℕ}
      (hx : x s = some (.ok (some (.chunk c)), s')) (h : Reading m n total q j s')
      (hlt : p + k < q + j)
  | fail {e : Error} {s' : EncryptionStream} (hx : x s = some (.error e, s')) (hP : ¬ P.Total)
  | more {s' : EncryptionStream} {q j : ℕ} (hx : x s = some (.ok none, s'))
      (h : Reading m n total q j s') (hle : p + k ≤ q + j) (hstuck : stuck s')
  | last {s₀ : EncryptionStream}
      (hx : x s = (finalizeDataMap P m fuel >>= fun r => pure (some r) : Stream _) s₀)
      (h : Reading m n total (getNumChunks m n) 2 s₀)

variable {fuel : ℕ}

/-- A call that ends as another one from a later state. -/
theorem Called.trans {x y : Stream (Option ChunkOrDataMap)} {s₁ : EncryptionStream} {q j : ℕ}
    {stuck stuck₁ : EncryptionStream → Prop} (h : Called P m n total fuel q j stuck₁ s₁ y)
    (hxy : x s = y s₁) (hle : p + k ≤ q + j) (hstuck : ∀ s', stuck₁ s' → stuck s') :
    Called P m n total fuel p k stuck s x := by
  cases h with
  | chunk hx h hlt => exact .chunk (hxy.trans hx) h (by omega)
  | fail hx hP => exact .fail (hxy.trans hx) hP
  | more hx h hle' hs' => exact .more (hxy.trans hx) h (by omega) (hstuck _ hs')
  | last hx h => exact .last (hxy.trans hx) h

/-- Where `try_process_chunks` has nothing to yield. -/
def Waits (m n total : ℕ) (s s' : EncryptionStream) : Prop :=
  SameInput s s' ∧ (s.inputComplete = true → total ≤ cut m n (getNumChunks m n - 1))

theorem Waits.trans {s₁ s' : EncryptionStream} (hsame : SameInput s s₁) (h : Waits m n total s₁ s') :
    Waits m n total s s' :=
  ⟨⟨h.1.1.trans hsame.1, h.1.2.trans hsame.2⟩, by rw [← hsame.1]; exact h.2⟩

theorem Reading.called_finalizeEncryption (hm : 0 < m) (h3 : 3 ≤ n)
    (h : Reading m n total (getNumChunks m n) k s) :
    Called P m n total fuel (getNumChunks m n) k (Waits m n total s) s
      (finalizeEncryption P m fuel) := by
  have hT := three_le_getNumChunks hm h3
  obtain ⟨hashes, hok, hlen⟩ := h.exists_srcHashes
  have hrun := finalizeEncryption_eq P m fuel h.incomplete hok
  -- a deferred chunk that is yielded
  have hyield : ∀ {f : Option EncryptedChunk → Stream (Option ChunkOrDataMap)}, k < 2 →
      (∀ c, f (some c) = pure (some (.chunk c))) →
      finalizeEncryption P m fuel s = (encryptDeferred P hashes k >>= f) s →
      Called P m n total fuel (getNumChunks m n) k (Waits m n total s) s
      (finalizeEncryption P m fuel) := by
    intro f h2 hf heq
    rcases h.post_encryptDeferred (P := P) hT h2 hlen with ⟨chunk, s', hx, hne, h'⟩ | ⟨e, s', hx, hP⟩
    · obtain ⟨c, rfl⟩ := Option.ne_none_iff_exists'.1 hne
      rw [Act.bind_of_ok hx, hf] at heq
      exact .chunk heq h' (by omega)
    · rw [Act.bind_of_error hx] at heq
      exact .fail heq hP
  have hk := h.yielded
  obtain rfl | rfl | rfl : k = 0 ∨ k = 1 ∨ k = 2 := by omega
  · exact hyield Nat.zero_lt_two (fun _ => rfl) hrun
  · rw [Act.bind_of_ok (h.encryptDeferred_taken Nat.zero_lt_one Nat.zero_lt_two)] at hrun
    exact hyield Nat.one_lt_two (fun _ => rfl) hrun
  · rw [Act.bind_of_ok (h.encryptDeferred_taken Nat.zero_lt_two Nat.zero_lt_two)] at hrun
    exact .last (hrun.trans
      (Act.bind_of_ok (h.encryptDeferred_taken Nat.one_lt_two Nat.one_lt_two))) h

theorem Reading.called_tryProcessChunks (hm : 0 < m) (h3 : 3 ≤ n) (h : Reading m n total p k s) :
    Called P m n total fuel p k (Waits m n total s) s (tryProcessChunks P m fuel) := by
  have hT := three_le_getNumChunks hm h3
  have hget := tryProcessChunks_eq P m fuel s
  rw [h.processed, h.totalChunks] at hget
  -- without a chunk from the loop
  have hnone : ∀ {q s₁}, processLoop P m (getNumChunks m n - p) s = some (.ok none, s₁) →
      Reading m n total q k s₁ → p ≤ q → SameInput s s₁ →
      (q = getNumChunks m n ∨ (s.inputComplete = true → total ≤ cut m n q)) →
      Called P m n total fuel p k (Waits m n total s) s (tryProcessChunks P m fuel) := by
    intro q s₁ hx h₁ hle hsame hstop
    have hle' := h₁.le
    rw [Act.bind_of_ok hx, chunkOr] at hget
    simp only [Act.get_bind, h₁.totalChunks, h₁.processed] at hget
    by_cases hend : s₁.inputComplete ∧ getNumChunks m n ≤ q
    · obtain rfl : q = getNumChunks m n := le_antisymm hle' hend.2
      rw [if_pos hend] at hget
      exact (h₁.called_finalizeEncryption hm h3).trans hget (by omega) fun _ => Waits.trans hsame
    · rw [if_neg hend] at hget
      refine .more hget h₁ (by omega) ⟨hsame, fun hin => ?_⟩
      have hlt : q < getNumChunks m n := by
        by_contra hge
        exact hend ⟨hsame.1.trans hin, Nat.le_of_not_lt hge⟩
      exact (hstop.resolve_left hlt.ne hin).trans (cut_mono m n (by omega))
  rcases h.early with rfl | rfl
  · rcases h.post_processLoop (P := P) hm h3 le_rfl with
      ⟨chunk, s₁, hx, q, hle, h₁, hsame, hstop, hlt⟩ | ⟨e, s₁, hx, hP⟩
    · rcases chunk with _ | chunk
      · exact hnone hx h₁ hle hsame (hstop rfl)
      · rw [Act.bind_of_ok hx] at hget
        have := hlt (Option.some_ne_none chunk)
        exact .chunk hget h₁ (by omega)
    · rw [Act.bind_of_error hx] at hget
      exact .fail hget hP
  · refine hnone ?_ h le_rfl ⟨rfl, rfl⟩ (.inl rfl)
    rw [Nat.sub_self]
    rfl

/-- The next piece goes into the buffer. -/
theorem Reading.pull (h : Reading m n total p k s) (hin : s.inputComplete = false) {d : Bytes}
    {rest : List Bytes} (hd : s.dataIter = d :: rest) :
    Reading m n total p k { s with dataIter := rest, buffer := s.buffer ++ d } :=
  { h with
    fed := by
      have hfed := h.fed
      rw [hd, List.flatten_cons, List.length_append] at hfed
      simp only [List.length_append]
      omega
    complete := by
      intro hin'
      exact absurd (hin.symm.trans hin') nofun }

theorem Reading.complete_input (h : Reading m n total p k s) (hd : s.dataIter = []) :
    Reading m n total p k { s with inputComplete := true } :=
  { h with complete := fun _ => hd }

/-- What comes after a call of `try_process_chunks`: a chunk or an error ends the call. -/
theorem Called.bind {x : Stream (Option ChunkOrDataMap)}
    {f : Option ChunkOrDataMap → Stream (Option ChunkOrDataMap)}
    {stuck stuck' : EncryptionStream → Prop} (hf : ∀ r, f (some r) = pure (some r))
    (h : Called P m n total fuel p k stuck s x)
    (hmore : ∀ {s' q j}, stuck s' → Reading m n total q j s' → p + k ≤ q + j →
      Called P m n total fuel q j stuck' s' (f none)) :
    Called P m n total fuel p k stuck' s (x >>= f) := by
  cases h with
  | chunk hx h hlt => exact .chunk (by rw [Act.bind_of_ok hx, hf]; rfl) h hlt
  | fail hx hP => exact .fail (Act.bind_of_error hx) hP
  | more hx h hle hstuck => exact (hmore hstuck h hle).trans (Act.bind_of_ok hx) hle fun _ => id
  | last hx h =>
    refine .last ?_ h
    rw [Act.bind_congr hx, bind_assoc]
    simp only [pure_bind, hf]

/-- With nothing to yield, the stream has seen the end of an input that is too short. -/
theorem Reading.called_nextLoop (hm : 0 < m) (h3 : 3 ≤ n) {turns : ℕ}
    (h : Reading m n total p k s) (ht : s.dataIter.length < turns) :
    Called P m n total fuel p k (fun _ => total ≤ cut m n (getNumChunks m n - 1)) s
      (nextLoop P m fuel turns) := by
  induction turns generalizing p k s with
  | zero => omega
  | succ turns ih =>
    have hloop := nextLoop_succ P m fuel turns (s := s) (by rw [h.unshrunk]; rfl) h.incomplete
    refine Called.trans ?_ hloop le_rfl fun _ => id
    refine Called.bind (fun _ => rfl) (h.called_tryProcessChunks hm h3) ?_
    rintro s₁ q j ⟨⟨hin, hiter⟩, hend⟩ h₁ hle
    cases hc : s₁.inputComplete with
    | true =>
      refine .more ?_ h₁ le_rfl (hend (hin.symm.trans hc))
      simp only [resultOr, nextPiece, Act.get_bind, hc, if_true]
      rfl
    | false =>
      cases hd : s₁.dataIter with
      | nil =>
        have hrun : Called P m n total fuel _ _ _ _ (tryProcessChunks P m fuel) :=
          (h₁.complete_input hd).called_tryProcessChunks hm h3
        refine hrun.trans ?_ le_rfl fun s' hw => hw.2 rfl
        simp only [resultOr, nextPiece, Act.get_bind, hc, hd, Bool.false_eq_true, if_false]
        rfl
      | cons d rest =>
        have hpull : nextPiece P m fuel turns s₁ =
            (tryProcessChunks P m fuel >>= resultOr (nextLoop P m fuel turns))
            { s₁ with dataIter := rest, buffer := s₁.buffer ++ d } := by
          simp only [nextPiece, Act.get_bind, hc, hd, Bool.false_eq_true, if_false]
          rfl
        refine Called.trans ?_ hpull le_rfl fun _ => id
        refine Called.bind (fun _ => rfl) ((h₁.pull hc hd).called_tryProcessChunks hm h3) ?_
        rintro s₂ q' j' ⟨⟨-, hiter₂⟩, -⟩ h₂ -
        refine ih h₂ ?_
        rw [hiter₂]
        rw [← hiter, hd, List.length_cons] at ht
        exact Nat.lt_of_succ_lt_succ ht

/-! ## The data map -/

/-- When the data map of so many chunks can be shrunk: it has three, or it is written down in no
    more bytes than a buffer holds and chunks are large enough for it to get shorter. -/
def Shrinkable (m chunks : ℕ) : Prop := chunks ≤ 3 ∨ 110 ≤ m ∧ 10 + 80 * chunks ≤ isizeMax

section Shrink

variable {infos : List ChunkInfo}

theorem length_encode_none (infos : List ChunkInfo) :
    (DataMap.mk infos none).encode.length = 10 + 80 * infos.length :=
  (DataMap.length_encode _).trans rfl

theorem shrinkDataMap_returns (hP : P.Total) (h : Shrinkable m infos.length)
    (hfuel : 10 + 80 * infos.length ≤ fuel) :
    ∃ map extra, shrinkDataMap P m fuel () ⟨infos, none⟩ (fun _ _ _ => .ok ()) =
      some (.ok ((), map, extra)) ∧ (extra = [] ∨ 2 ≤ extra.length) := by
  rcases Nat.lt_or_ge 3 infos.length with hN | hN
  · obtain ⟨hm, hlen⟩ := h.resolve_left (by omega)
    have hb : (DataMap.mk infos none).toBytes = some (DataMap.mk infos none).encode := by
      rw [DataMap.toBytes, if_pos (by rwa [length_encode_none])]
    obtain ⟨map, extra, he⟩ : ∃ map extra,
        Encrypts P m (DataMap.mk infos none).encode 1 map extra :=
      exists_encrypts hP (by rw [length_encode_none]; omega) (by rwa [length_encode_none])
        (by omega) (.inr hm)
    refine ⟨⟨map.infos, some 1⟩, extra, ?_, .inr ?_⟩
    · exact (shrinkLoop_large hN fun _ _ h => (encrypts_of_eq_ok h).infos).2
        ⟨_, map, extra, (), hb, he.eq_ok_of_le (by rwa [length_encode_none]), foldlM_unit extra, rfl⟩
    · have hthree := he.three_le_length
      omega
  · exact ⟨_, [], shrinkLoop_small hN, .inl rfl⟩

theorem shrinkable_of_shrinkDataMap {r : Unit × DataMap × List EncryptedChunk}
    (h : shrinkDataMap P m fuel () ⟨infos, none⟩ (fun _ _ _ => .ok ()) = some (.ok r)) :
    Shrinkable m infos.length := by
  refine or_iff_not_imp_left.2 fun hN => ?_
  obtain ⟨bytes, map, extra, -, hb, he, -⟩ := (shrinkLoop_large (by omega)
    fun _ _ h => (encrypts_of_eq_ok h).infos).1 h
  obtain ⟨rfl, hlen⟩ := DataMap.toBytes_eq_some hb
  have henc := encrypts_of_eq_ok he
  have hlarge := henc.large
  rw [length_encode_none] at hlen hlarge
  exact ⟨hlarge.elim (le_of_getNumChunks_encode henc.sealed.pos.1 (by omega)) id, hlen⟩

end Shrink

/-- The data map is there, and `k` of the chunks it was shrunk to have been yielded. -/
structure Mapped (map : DataMap) (extra : List EncryptedChunk) (k : ℕ) (s : EncryptionStream) :
    Prop where
  datamap : s.finalDatamap = some map
  chunks : s.shrinkingChunks = extra
  index : s.shrinkingChunkIndex = k
  complete : extra.length ≤ k → s.isComplete = true

/-- From here the stream is drained without an error, and ends with a data map. -/
def YieldsMap (P : Primitives) (m fuel : ℕ) (s : EncryptionStream) : Prop :=
  ∃ items : List (XorName × Bytes), ∃ s', Drains (chunksNext P m fuel) s (items.map .ok) s' ∧
    s'.datamap ≠ none

theorem YieldsMap.cons {s' : EncryptionStream} {item : XorName × Bytes}
    (h : YieldsMap P m fuel s')
    (hnext : chunksNext P m fuel s = some (some (.ok item), s')) : YieldsMap P m fuel s := by
  obtain ⟨items, s₂, ⟨s₁, hp, hend⟩, hmap⟩ := h
  exact ⟨item :: items, s₂, ⟨s₁, .cons hnext hp, hend⟩, hmap⟩

theorem yieldsMap_of_dataMap {s' : EncryptionStream} {map : DataMap}
    (h : nextInternal P m fuel s = some (.ok (some (.dataMap map)), s')) : YieldsMap P m fuel s := by
  refine ⟨[], { s' with finalDatamap := some map }, ⟨s, .nil, ?_⟩, nofun⟩
  rw [chunksNext, h]
  rfl

section Mapped

variable {map : DataMap} {extra : List EncryptedChunk}

theorem Mapped.yieldsMap (h : Mapped map extra k s) (hk : k ≤ extra.length) :
    YieldsMap P m fuel s := by
  induction hj : extra.length - k generalizing k s with
  | zero =>
    obtain rfl : k = extra.length := by omega
    have hint : nextInternal P m fuel s = some (.ok (some (.dataMap map)), s) := by
      simp only [nextInternal_eq, nextLoop, Act.get_bind, h.chunks, h.index, h.complete le_rfl,
        List.getElem?_eq_none le_rfl, h.datamap, if_true]
      rfl
    exact yieldsMap_of_dataMap hint
  | succ j ih =>
    have hlt : k < extra.length := by omega
    have hnext : nextLoop P m fuel (s.dataIter.length + 1) s =
        some (.ok (some (.chunk extra[k])), { s with
          shrinkingChunkIndex := k + 1
          isComplete := s.isComplete || decide (extra.length ≤ k + 1) }) := by
      simp only [nextLoop, Act.get_bind, h.chunks, h.index, List.getElem?_eq_getElem hlt, Act.set_bind]
      rfl
    refine (ih (k := k + 1) (s := { s with
      shrinkingChunkIndex := k + 1
      isComplete := s.isComplete || decide (extra.length ≤ k + 1) }) ?_ hlt (by omega)).cons
        (chunksNext_chunk hnext)
    exact ⟨h.datamap, h.chunks, rfl, fun hle => by simp [hle]⟩

/-- The data map is that of all the infos. -/
theorem Reading.finalizeDataMap_eq (P : Primitives) (fuel : ℕ)
    (h : Reading m n total (getNumChunks m n) 2 s) :
    ∃ infos, infos.length = getNumChunks m n ∧ finalizeDataMap P m fuel s = (do
      let shrunk ← Act.ofRun (shrinkDataMap P m fuel () ⟨infos, none⟩ fun _ _ _ => .ok ())
      modify fun s => { s with shrinkingChunks := shrunk.2.2, finalDatamap := some shrunk.2.1 }
      let s ← get
      match s.shrinkingChunks[s.shrinkingChunkIndex]? with
      | some chunk => do
        set { s with shrinkingChunkIndex := s.shrinkingChunkIndex + 1 }
        pure (.chunk chunk)
      | none => do
        set { s with isComplete := true }
        pure (.dataMap shrunk.2.1) : Stream ChunkOrDataMap) s := by
  obtain ⟨infos, hok, hlen, hindexed⟩ := h.exists_chunkInfos
  refine ⟨infos, hlen, ?_⟩
  have hinfos : (Act.ofExcept (allChunkInfos s) : Stream _) s = some (.ok infos, s) :=
    congrArg (fun r => some (r, s)) hok
  simp only [finalizeDataMap, Act.get_bind]
  rewrite [Act.bind_of_ok hinfos, sortByIndex_eq hindexed, DataMap.new_eq hindexed]
  rfl

end Mapped

/-! ## Which lengths give a data map -/

/-- The last call, when the data map can be shrunk. -/
theorem Reading.yieldsMap_last (hP : P.Total) (h : Reading m n total (getNumChunks m n) 2 s)
    (hshrink : Shrinkable m (getNumChunks m n)) (hfuel : 10 + 80 * getNumChunks m n ≤ fuel)
    {s₁ : EncryptionStream} (hlast : nextInternal P m fuel s₁ =
      (finalizeDataMap P m fuel >>= fun r => pure (some r) : Stream _) s) :
    YieldsMap P m fuel s₁ := by
  obtain ⟨infos, hlen, hfinal⟩ := h.finalizeDataMap_eq P fuel
  rw [← hlen] at hshrink hfuel
  obtain ⟨map, extra, hmap, hextra⟩ := shrinkDataMap_returns hP hshrink hfuel
  rw [Act.bind_of_ok (Act.ofRun_run hmap)] at hfinal
  simp only [Act.modify_bind, Act.get_bind, h.unindexed] at hfinal
  cases extra with
  | nil =>
    rw [List.getElem?_nil] at hfinal
    rw [Act.bind_of_ok (a := .dataMap map) hfinal] at hlast
    exact yieldsMap_of_dataMap hlast
  | cons c extra =>
    rw [List.getElem?_cons_zero] at hfinal
    rw [Act.bind_of_ok (a := .chunk c) hfinal] at hlast
    have hlen := hextra.resolve_left (List.cons_ne_nil c extra)
    have hmapped : Mapped map (c :: extra) 1 { s with
        shrinkingChunks := c :: extra
        finalDatamap := some map
        shrinkingChunkIndex := 1 } :=
      ⟨rfl, rfl, rfl, fun hle => by omega⟩
    rw [nextInternal_eq] at hlast
    exact (hmapped.yieldsMap (by omega)).cons (chunksNext_chunk hlast)

/-- More bytes than the chunks before the last have: there is a data map. -/
theorem Reading.yieldsMap (hP : P.Total) (hm : 0 < m) (h3 : 3 ≤ n) (h : Reading m n total p k s)
    (hlong : cut m n (getNumChunks m n - 1) < total) (hshrink : Shrinkable m (getNumChunks m n))
    (hfuel : 10 + 80 * getNumChunks m n ≤ fuel) : YieldsMap P m fuel s := by
  induction hj : getNumChunks m n + 2 - (p + k) using Nat.strong_induction_on
    generalizing p k s with
  | _ j ih =>
    have hle := h.le
    have hle' := h.yielded
    have hcalled : Called P m n total fuel p k _ s (nextLoop P m fuel (s.dataIter.length + 1)) :=
      h.called_nextLoop hm h3 (Nat.lt_succ_self s.dataIter.length)
    cases hcalled with
    | chunk hx h' hlt =>
      have hrest := ih _ (by have := h'.le; have := h'.yielded; omega) h' rfl
      exact hrest.cons (chunksNext_chunk hx)
    | fail hx hfail => exact absurd hP hfail
    | more hx h' _ hshort => omega
    | last hx h' => exact h'.yieldsMap_last hP hshrink hfuel ((nextInternal_eq fuel s).trans hx)

/-- What `next` returns while there can be no data map. -/
inductive Barren (P : Primitives) (m n total fuel : ℕ) (s : EncryptionStream) : Prop
  | runs (hnext : chunksNext P m fuel s = none)
  | fails {e : Error} {s' : EncryptionStream}
      (hnext : chunksNext P m fuel s = some (some (.error e), s'))
  | item {item : XorName × Bytes} {s' : EncryptionStream} {q j : ℕ}
      (hnext : chunksNext P m fuel s = some (some (.ok item), s')) (h : Reading m n total q j s')
  | ends {s' : EncryptionStream} (hnext : chunksNext P m fuel s = some (none, s'))
      (hmap : s'.datamap = none)

/-- The data map of too many infos does not come out. -/
theorem Reading.barren_last (h : Reading m n total (getNumChunks m n) 2 s)
    (hshrink : ¬ Shrinkable m (getNumChunks m n)) {s₁ : EncryptionStream}
    (hlast : nextInternal P m fuel s₁ =
      (finalizeDataMap P m fuel >>= fun r => pure (some r) : Stream _) s) :
    Barren P m n total fuel s₁ := by
  obtain ⟨infos, hlen, hfinal⟩ := h.finalizeDataMap_eq P fuel
  rcases hrun : shrinkDataMap P m fuel () ⟨infos, none⟩ fun _ _ _ => .ok () with _ | ⟨e | r⟩
  · have hnone : finalizeDataMap P m fuel s = none := by
      rw [hfinal, hrun]
      rfl
    rw [Act.bind_of_none hnone] at hlast
    refine .runs ?_
    rw [chunksNext, hlast]
    rfl
  · have herror : finalizeDataMap P m fuel s = some (.error e, s) := by
      rw [hfinal, hrun]
      rfl
    rw [Act.bind_of_error herror] at hlast
    have hnext : chunksNext P m fuel s₁ = some (some (.error e), s) := by
      rw [chunksNext, hlast]
      rfl
    exact .fails hnext
  · exact absurd (shrinkable_of_shrinkDataMap hrun) (by rwa [hlen])

theorem Reading.barren (P : Primitives) (fuel : ℕ) (hm : 0 < m) (h3 : 3 ≤ n)
    (hbad : total ≤ cut m n (getNumChunks m n - 1) ∨ ¬ Shrinkable m (getNumChunks m n))
    (h : Reading m n total p k s) : Barren P m n total fuel s := by
  have hT := three_le_getNumChunks hm h3
  have hcalled : Called P m n total fuel p k _ s (nextLoop P m fuel (s.dataIter.length + 1)) :=
    h.called_nextLoop hm h3 (Nat.lt_succ_self s.dataIter.length)
  cases hcalled with
  | chunk hx h' _ => exact .item (chunksNext_chunk hx) h'
  | @fail e s' hx _ =>
    have hnext : chunksNext P m fuel s = some (some (.error e), s') := by
      rw [chunksNext, nextInternal_eq, hx]
      rfl
    exact .fails hnext
  | @more s' q j hx h' _ _ =>
    have hnext : chunksNext P m fuel s = some (none, s') := by
      rw [chunksNext, nextInternal_eq, hx]
      rfl
    exact .ends hnext h'.unmapped
  | last hx h' =>
    rcases hbad with hshort | hshrink
    · have hbegun := h'.begun (getNumChunks m n - 1) (by omega)
      omega
    · exact h'.barren_last hshrink ((nextInternal_eq fuel s).trans hx)

/-- The stream has no data map, unless an error is among its items. -/
theorem Reading.no_datamap (hm : 0 < m) (h3 : 3 ≤ n)
    (hbad : total ≤ cut m n (getNumChunks m n - 1) ∨ ¬ Shrinkable m (getNumChunks m n))
    {items : List (Except Error (XorName × Bytes))} {s' : EncryptionStream}
    (h : Reading m n total p k s) (hd : Drains (chunksNext P m fuel) s items s') :
    (∃ e, .error e ∈ items) ∨ s'.datamap = none := by
  obtain ⟨s₁, hp, hend⟩ := hd
  induction hp generalizing p k with
  | nil =>
    cases h.barren P fuel hm h3 hbad with
    | runs hnext => exact nomatch hnext.symm.trans hend
    | fails hnext => exact nomatch hnext.symm.trans hend
    | item hnext => exact nomatch hnext.symm.trans hend
    | ends hnext hmap =>
      obtain ⟨-, rfl⟩ := Prod.mk.inj (Option.some.inj (hnext.symm.trans hend))
      exact .inr hmap
  | cons hfirst hp ih =>
    cases h.barren P fuel hm h3 hbad with
    | runs hnext => exact nomatch hnext.symm.trans hfirst
    | @fails e s' hnext =>
      obtain ⟨hi, -⟩ := Prod.mk.inj (Option.some.inj (hfirst.symm.trans hnext))
      exact .inl ⟨e, by rw [Option.some.inj hi]; exact List.mem_cons_self⟩
    | item hnext h' =>
      obtain ⟨-, rfl⟩ := Prod.mk.inj (Option.some.inj (hnext.symm.trans hfirst))
      exact (ih h' hend).imp_left fun ⟨e, he⟩ => ⟨e, List.mem_cons_of_mem _ he⟩
    | ends hnext => exact nomatch hnext.symm.trans hfirst

/-- Draining the stream of these pieces ends with an error among its items or without a data map. -/
def RejectsLength (P : Primitives) (m dataSize : ℕ) (pieces : List Bytes) : Prop :=
  ∀ fuel stream items s', streamEncrypt m dataSize pieces = .ok stream →
    Drains (chunksNext P m fuel) stream items s' →
    (∃ e, .error e ∈ items) ∨ s'.datamap = none

theorem YieldsMap.not_rejectsLength {dataSize : ℕ} {pieces : List Bytes} (h : YieldsMap P m fuel s)
    (hs : streamEncrypt m dataSize pieces = .ok s) : ¬ RejectsLength P m dataSize pieces := by
  intro hreject
  obtain ⟨items, s', hd, hmap⟩ := h
  rcases hreject _ _ _ _ hs hd with ⟨e, he⟩ | hnone
  · obtain ⟨item, -, hitem⟩ := List.mem_map.1 he
    exact nomatch hitem
  · exact hmap hnone

/-- **Which lengths are rejected**: those that do not reach into the last chunk of the declared
    length, whatever the pieces, and all where the data map cannot be shrunk. -/
theorem rejectsLength_iff (hP : P.Total) (hm : 0 < m) {dataSize : ℕ} (h3 : 3 ≤ dataSize)
    (pieces : List Bytes) :
    RejectsLength P m dataSize pieces ↔
      pieces.flatten.length ≤ cut m dataSize (getNumChunks m dataSize - 1) ∨
        ¬ Shrinkable m (getNumChunks m dataSize) := by
  obtain ⟨stream, hstream, h⟩ := reading_new hm h3 pieces
  constructor
  · intro hreject
    by_contra hgood
    obtain ⟨hlong, hshrink⟩ := not_or.1 hgood
    have hmap : YieldsMap P m (10 + 80 * getNumChunks m dataSize) stream :=
      h.yieldsMap hP hm h3 (Nat.lt_of_not_le hlong) (not_not.1 hshrink) le_rfl
    exact hmap.not_rejectsLength hstream hreject
  · intro hbad fuel stream' items s' hstream' hd
    obtain rfl := Except.ok.inj (hstream.symm.trans hstream')
    exact h.no_datamap hm h3 hbad hd

/-- A file declared as three chunks of 110 bytes and one byte. -/
theorem rejectsLength_331 : RejectsLength clear 110 331 [List.replicate 330 7] ∧
    ¬ RejectsLength clear 110 331 [List.replicate 332 7] := by
  have hiff := fun size => rejectsLength_iff clear_total (show 0 < 110 by decide)
    (show 3 ≤ 331 by decide) [List.replicate size 7]
  have hshrink : Shrinkable 110 (getNumChunks 110 331) := .inr ⟨le_rfl, by decide⟩
  have hcut : cut 110 331 (getNumChunks 110 331 - 1) = 330 := by decide
  simp only [hcut, hshrink, List.flatten_cons, List.flatten_nil, List.append_nil,
    List.length_replicate, not_true, or_false] at hiff
  exact ⟨(hiff 330).2 le_rfl, fun h => absurd ((hiff 332).1 h) (by decide)⟩

/-- Four bytes declared as three come out as a map, that of the first three; so do five bytes
    declared as six. -/
theorem not_rejectsLength : ¬ RejectsLength clear maxChunkSize 3 [[1, 2], [3, 4]] ∧
    ¬ RejectsLength clear maxChunkSize 6 [[1, 2], [3, 4, 5]] ∧
    ∃ stream items stream' map chunks,
      streamEncrypt maxChunkSize 3 [[1, 2], [3, 4]] = .ok stream ∧
      Drains (chunksNext clear maxChunkSize 0) stream items stream' ∧
      stream'.datamap = some map ∧
      encrypt clear maxChunkSize 1 [1, 2, 3] = some (.ok (map, chunks)) := by
  have hm : 0 < maxChunkSize := by decide
  obtain ⟨s₁, hs₁, h₁⟩ := reading_new hm (show 3 ≤ 3 by decide) [[1, 2], [3, 4]]
  obtain ⟨s₂, hs₂, h₂⟩ := reading_new hm (show 3 ≤ 6 by decide) [[1, 2], [3, 4, 5]]
  refine ⟨(h₁.yieldsMap clear_total hm le_rfl (by decide) (.inl (by decide)) le_rfl
    ).not_rejectsLength hs₁, (h₂.yieldsMap clear_total hm (by decide) (by decide)
      (.inl (by decide)) le_rfl).not_rejectsLength hs₂, ?_⟩
  obtain ⟨⟨map, chunks⟩, henc, hrun⟩ := Run.of_okWith (p := fun r => decide
      ((collect (chunksNext clear maxChunkSize 0) 5 s₁).map (fun c => c.2.datamap) = some (some r.1)))
      (x := encrypt clear maxChunkSize 1 [1, 2, 3]) (by
    obtain rfl := Except.ok.inj (hs₁.symm.trans rfl)
    decide +kernel)
  obtain ⟨⟨items, s'⟩, hitems, hs'⟩ := Option.map_eq_some_iff.1 (of_decide_eq_true hrun)
  exact ⟨s₁, items, s', map, chunks, hs₁, drains_of_collect hitems, hs', henc⟩

end Autonomi
