/-
  `encrypt` and `shrink_data_map` (`self_encryption/src/lib.rs`), which call
  each other: a data map of more than three chunks is itself encrypted.

  The mutual recursion has a fuel argument; `none` is a call that has not
  returned.
-/
import Autonomi.Lib.Range
import Autonomi.SelfEncryption.Cipher
import Autonomi.SelfEncryption.Utils

namespace Autonomi

open Lib

variable (P : Primitives) (m : ℕ)

/-! ## One level -/

/-- The variables of the loops of `encrypt_with_child_level`. -/
structure Pass where
  chunkInfos : List ChunkInfo
  firstChunks : List (ℕ × Bytes × XorName × ℕ)
  srcHashes : List XorName
  encryptedChunks : List EncryptedChunk

/-- The loop over the chunks; the first two wait for the hashes of all. -/
def processChunk (bytes : Bytes) (childLevel : ℕ) (s : Pass) (chunkIndex : ℕ) :
    Except Error Pass := do
  let pos := getStartEndPositions m bytes.length chunkIndex
  let chunkData := slice bytes pos.1 pos.2
  let srcHash := contentHash P chunkData
  let srcHashes := s.srcHashes ++ [srcHash]
  if chunkIndex < 2 then
    pure { s with
      srcHashes := srcHashes
      firstChunks := s.firstChunks ++ [(chunkIndex, chunkData, srcHash, pos.2 - pos.1)] }
  else
    let pki ← getPadKeyAndNonce P chunkIndex srcHashes childLevel
    let encryptedContent ← encryptChunk P chunkData pki
    let dstHash := contentHash P encryptedContent
    pure { s with
      srcHashes := srcHashes
      encryptedChunks := s.encryptedChunks ++ [⟨encryptedContent⟩]
      chunkInfos := s.chunkInfos ++ [⟨chunkIndex, dstHash, srcHash, pos.2 - pos.1⟩] }

def processFirstChunk (childLevel : ℕ) (s : Pass) (first : ℕ × Bytes × XorName × ℕ) :
    Except Error Pass := do
  let (chunkIndex, chunkData, srcHash, srcSize) := first
  let pki ← getPadKeyAndNonce P chunkIndex s.srcHashes childLevel
  let encryptedContent ← encryptChunk P chunkData pki
  let dstHash := contentHash P encryptedContent
  pure { s with
    encryptedChunks := s.encryptedChunks.insertIdx chunkIndex ⟨encryptedContent⟩
    chunkInfos := s.chunkInfos.insertIdx chunkIndex ⟨chunkIndex, dstHash, srcHash, srcSize⟩ }

/-- The two loops. -/
def encryptAll (bytes : Bytes) (childLevel : ℕ) : Except Error Pass := do
  let s ← (List.range (getNumChunks m bytes.length)).foldlM (processChunk P m bytes childLevel)
    ⟨[], [], [], []⟩
  s.firstChunks.foldlM (processFirstChunk P childLevel) s

/-! ## All levels -/

/-- `while data_map.len() > 3`.  `enc` is `encrypt_with_child_level`, and `storeChunk` the
    closure, which may change `σ`. -/
def shrinkLoop {σ : Type} (enc : Bytes → ℕ → Run Error (DataMap × List EncryptedChunk))
    (storeChunk : σ → XorName → Bytes → Except Error σ) :
    ℕ → σ → DataMap → List EncryptedChunk → Run Error (σ × DataMap × List EncryptedChunk)
  | 0, _, _, _ => none
  | fuel + 1, s, dataMap, allChunks =>
    if 3 < dataMap.len then do
      let nextChildLevel := match dataMap.child with
        | none => 1
        | some c => c + 1
      let bytes ← (dataMap.toBytes : Option Bytes)
      let (newDataMap, encryptedChunks) ← enc bytes nextChildLevel
      let s ← (encryptedChunks.foldlM
        (fun s chunk => storeChunk s (contentHash P chunk.content) chunk.content) s : Except Error σ)
      shrinkLoop enc storeChunk fuel s (.withChild newDataMap.infos nextChildLevel)
        (allChunks ++ encryptedChunks)
    else pure (s, dataMap, allChunks)

def encryptWithChildLevel : ℕ → Bytes → ℕ → Run Error (DataMap × List EncryptedChunk)
  | 0, _, _ => none
  | fuel + 1, bytes, childLevel => do
    if bytes.length < minEncryptableBytes then
      throw (.generic
        s!"Too small for self-encryption! Required size at least {minEncryptableBytes}")
    if getNumChunks m bytes.length < 3 then
      throw (.generic "File must be large enough to generate at least 3 chunks")
    let s ← encryptAll P m bytes childLevel
    let (encryptedChunks, shrunkDataMap, _) ←
      shrinkLoop P (encryptWithChildLevel fuel) (fun chunks _ content => .ok (chunks ++ [⟨content⟩]))
        (fuel + 2) s.encryptedChunks (.new s.chunkInfos) []
    pure (shrunkDataMap, encryptedChunks)

def shrinkDataMap {σ : Type} (fuel : ℕ) (s : σ) (dataMap : DataMap)
    (storeChunk : σ → XorName → Bytes → Except Error σ) :
    Run Error (σ × DataMap × List EncryptedChunk) :=
  shrinkLoop P (encryptWithChildLevel P m fuel) storeChunk (fuel + 2) s dataMap []

def encrypt (fuel : ℕ) (bytes : Bytes) : Run Error (DataMap × List EncryptedChunk) :=
  encryptWithChildLevel P m fuel bytes 0

/-! ## The chunks of one level -/

/-- The two other chunks whose hashes go into the key of chunk `i` of `n`. -/
def n1Of (n : ℕ) : ℕ → ℕ
  | 0 => n - 1
  | i + 1 => i

def n2Of (n : ℕ) : ℕ → ℕ
  | 0 => n - 2
  | 1 => n - 1
  | i + 2 => i

section Level

variable (level : ℕ) (data : Bytes)

def chunkAt (i : ℕ) : Bytes := slice data (cut m data.length i) (cut m data.length (i + 1))

def srcHashAt (i : ℕ) : XorName := contentHash P (chunkAt m data i)

def pkiAt (i : ℕ) : Pki :=
  getPki P (srcHashAt P m data i) (srcHashAt P m data (n1Of (getNumChunks m data.length) i))
    (srcHashAt P m data (n2Of (getNumChunks m data.length) i)) i level

/-- Chunk `i` encrypted (empty when the cipher fails). -/
def cipherAt (i : ℕ) : Bytes :=
  (encryptChunk P (chunkAt m data i) (pkiAt P m level data i)).toOption.getD []

def infoAt (i : ℕ) : ChunkInfo where
  index := i
  dstHash := contentHash P (cipherAt P m level data i)
  srcHash := srcHashAt P m data i
  srcSize := cut m data.length (i + 1) - cut m data.length i

def infosOf : List ChunkInfo :=
  (List.range (getNumChunks m data.length)).map (infoAt P m level data)

def chunksOf : List EncryptedChunk :=
  (List.range (getNumChunks m data.length)).map fun i => ⟨cipherAt P m level data i⟩

/-- `data` has at least three chunks, and each can be encrypted. -/
structure Sealed : Prop where
  three_le : 3 ≤ getNumChunks m data.length
  cipher : ∀ i < getNumChunks m data.length,
    encryptChunk P (chunkAt m data i) (pkiAt P m level data i) = .ok (cipherAt P m level data i)

end Level

/-- **What `encrypt_with_child_level` returns**: either `data` has three chunks, or its
    data map is encrypted in turn, at level 1, and the map of that is tagged with 1. -/
inductive Encrypts : Bytes → ℕ → DataMap → List EncryptedChunk → Prop
  | root {data : Bytes} {level : ℕ} (hs : Sealed P m level data)
      (hN : getNumChunks m data.length ≤ 3) :
      Encrypts data level ⟨infosOf P m level data, none⟩ (chunksOf P m level data)
  | shrink {data bytes : Bytes} {level : ℕ} {map : DataMap} {extra : List EncryptedChunk}
      (hs : Sealed P m level data) (hN : 3 < getNumChunks m data.length)
      (hb : (DataMap.mk (infosOf P m level data) none).toBytes = some bytes)
      (h : Encrypts bytes 1 map extra) :
      Encrypts data level ⟨map.infos, some 1⟩ (chunksOf P m level data ++ extra)

/-! ## The loops -/

variable {P m}

theorem Sealed.pos {level : ℕ} {data : Bytes} (h : Sealed P m level data) :
    0 < m ∧ 3 ≤ data.length :=
  ⟨pos_of_getNumChunks h.three_le, le_of_getNumChunks h.three_le⟩

theorem getPadKeyAndNonce_map_range {h : ℕ → XorName} {i n : ℕ} (level : ℕ) (hn : 3 ≤ n)
    (hi : i < n) :
    getPadKeyAndNonce P i ((List.range n).map h) level =
      .ok (getPki P (h i) (h (n1Of n i)) (h (n2Of n i)) i level) := by
  have hN : getN1N2 i n = .ok (n1Of n i, n2Of n i) := by
    unfold getN1N2; rw [if_neg (by omega), if_neg (by omega)]
    rcases i with _ | _ | i <;> rfl
  have h1 : n1Of n i < n := by rcases i with _ | i <;> simp only [n1Of] <;> omega
  have h2 : n2Of n i < n := by rcases i with _ | _ | i <;> simp only [n2Of] <;> omega
  simp [getPadKeyAndNonce, hN, hi, h1, h2, bind, Except.bind, pure, Except.pure]

/-- From chunk 2 on, the hashes read so far are enough for the key. -/
theorem getPadKeyAndNonce_initial {level i : ℕ} {data : Bytes} (h2 : 2 ≤ i) :
    getPadKeyAndNonce P i ((List.range (i + 1)).map (srcHashAt P m data)) level =
      .ok (pkiAt P m level data i) := by
  rw [getPadKeyAndNonce_map_range level (by omega) (by omega), pkiAt]
  obtain ⟨i, rfl⟩ := Nat.exists_eq_add_of_le' h2
  rfl

theorem getPadKeyAndNonce_srcHashes {level i : ℕ} {data : Bytes}
    (h3 : 3 ≤ getNumChunks m data.length) (hi : i < getNumChunks m data.length) :
    getPadKeyAndNonce P i ((List.range (getNumChunks m data.length)).map (srcHashAt P m data))
      level = .ok (pkiAt P m level data i) :=
  getPadKeyAndNonce_map_range level h3 hi

theorem cipherAt_eq {level i : ℕ} {data content : Bytes}
    (h : encryptChunk P (chunkAt m data i) (pkiAt P m level data i) = .ok content) :
    cipherAt P m level data i = content := by
  rw [cipherAt, h]; rfl

section Loop

variable {data : Bytes} {level : ℕ}

/-- The state of the first loop before chunk `i`. -/
def passAt (P : Primitives) (m : ℕ) (data : Bytes) (level i : ℕ) : Pass where
  chunkInfos := (List.range' 2 (i - 2)).map (infoAt P m level data)
  firstChunks := (List.range (min i 2)).map fun j =>
    (j, chunkAt m data j, srcHashAt P m data j, cut m data.length (j + 1) - cut m data.length j)
  srcHashes := (List.range i).map (srcHashAt P m data)
  encryptedChunks := (List.range' 2 (i - 2)).map fun j => ⟨cipherAt P m level data j⟩

theorem processChunk_passAt (hm : 0 < m) (h3 : 3 ≤ data.length) {i : ℕ}
    (hi : i < getNumChunks m data.length) {s : Pass} :
    processChunk P m data level (passAt P m data level i) i = .ok s ↔
      (2 ≤ i → encryptChunk P (chunkAt m data i) (pkiAt P m level data i) =
        .ok (cipherAt P m level data i)) ∧ s = passAt P m data level (i + 1) := by
  have hsrc : (passAt P m data level i).srcHashes ++ [srcHashAt P m data i] =
      (List.range (i + 1)).map (srcHashAt P m data) := by
    rw [List.range_succ, List.map_append]; rfl
  rw [processChunk, getStartEndPositions_eq hm h3 hi]
  simp only
  rw [show slice data (cut m data.length i) (cut m data.length (i + 1)) = chunkAt m data i from rfl,
    show contentHash P (chunkAt m data i) = srcHashAt P m data i from rfl, hsrc]
  split_ifs with h2
  · have hs : passAt P m data level (i + 1) = { passAt P m data level i with
        srcHashes := (List.range (i + 1)).map (srcHashAt P m data)
        firstChunks := (passAt P m data level i).firstChunks ++ [(i, chunkAt m data i,
          srcHashAt P m data i, cut m data.length (i + 1) - cut m data.length i)] } := by
      have h1 : i + 1 - 2 = 0 ∧ i - 2 = 0 := by omega
      simp only [passAt, h1.1, h1.2, min_eq_left h2.le, min_eq_left (show i + 1 ≤ 2 by omega),
        List.range_succ, List.map_append, List.map_cons, List.map_nil]
    rw [hs]
    constructor
    · intro h; exact ⟨fun h' => absurd h' (by omega), (Except.ok.inj h).symm⟩
    · rintro ⟨-, rfl⟩; rfl
  · have h2 : 2 ≤ i := by omega
    have hr : List.range' 2 (i + 1 - 2) = List.range' 2 (i - 2) ++ [i] := by
      rw [show i + 1 - 2 = i - 2 + 1 by omega, List.range'_concat]; congr 2; omega
    have hs : passAt P m data level (i + 1) = { passAt P m data level i with
        srcHashes := (List.range (i + 1)).map (srcHashAt P m data)
        encryptedChunks := (passAt P m data level i).encryptedChunks ++
          [⟨cipherAt P m level data i⟩]
        chunkInfos := (passAt P m data level i).chunkInfos ++ [infoAt P m level data i] } := by
      simp only [passAt, hr, List.map_append, List.map_cons, List.map_nil,
        min_eq_right h2, min_eq_right (show 2 ≤ i + 1 by omega)]
    rw [hs]
    simp only [getPadKeyAndNonce_initial h2, bind_eq_ok, Except.ok.injEq, exists_eq_left']
    constructor
    · rintro ⟨c, hc, h⟩
      rw [cipherAt_eq hc] at *
      exact ⟨fun _ => hc, by rw [← Except.ok.inj h, infoAt, cipherAt_eq hc]⟩
    · rintro ⟨hc, rfl⟩; exact ⟨_, hc h2, rfl⟩

theorem foldlM_processChunk (hm : 0 < m) (h3 : 3 ≤ data.length) {s : Pass} :
    ∀ {i : ℕ}, i ≤ getNumChunks m data.length →
    ((List.range i).foldlM (processChunk P m data level) ⟨[], [], [], []⟩ = .ok s ↔
      (∀ j, 2 ≤ j → j < i → encryptChunk P (chunkAt m data j) (pkiAt P m level data j) =
        .ok (cipherAt P m level data j)) ∧ s = passAt P m data level i)
  | 0, _ => by
    constructor
    · intro h; exact ⟨fun j _ hj => absurd hj (Nat.not_lt_zero j), (Except.ok.inj h).symm⟩
    · rintro ⟨-, rfl⟩; rfl
  | i + 1, hi => by
    rw [List.range_succ, List.foldlM_append, bind_eq_ok]
    simp only [foldlM_processChunk hm h3 (show i ≤ _ by omega), List.foldlM_cons, List.foldlM_nil,
      bind_pure]
    constructor
    · rintro ⟨_, ⟨hj, rfl⟩, h⟩
      obtain ⟨hi, rfl⟩ := (processChunk_passAt hm h3 (by omega)).1 h
      refine ⟨fun j h2 hji => ?_, rfl⟩
      rcases Nat.lt_succ_iff_lt_or_eq.1 hji with h | rfl
      · exact hj j h2 h
      · exact hi h2
    · rintro ⟨hj, rfl⟩
      exact ⟨_, ⟨fun j h2 hji => hj j h2 (by omega), rfl⟩,
        (processChunk_passAt hm h3 (by omega)).2 ⟨fun h2 => hj i h2 (by omega), rfl⟩⟩

theorem processFirstChunk_eq_ok (h3 : 3 ≤ getNumChunks m data.length) {i : ℕ}
    (hi : i < getNumChunks m data.length) {s s' : Pass}
    (hs : s.srcHashes = (List.range (getNumChunks m data.length)).map (srcHashAt P m data)) :
    processFirstChunk P level s (i, chunkAt m data i, srcHashAt P m data i,
        cut m data.length (i + 1) - cut m data.length i) = .ok s' ↔
      encryptChunk P (chunkAt m data i) (pkiAt P m level data i) = .ok (cipherAt P m level data i) ∧
      s' = { s with
        encryptedChunks := s.encryptedChunks.insertIdx i ⟨cipherAt P m level data i⟩
        chunkInfos := s.chunkInfos.insertIdx i (infoAt P m level data i) } := by
  simp only [processFirstChunk, hs, getPadKeyAndNonce_srcHashes h3 hi, bind_eq_ok, Except.ok.injEq,
    exists_eq_left']
  constructor
  · rintro ⟨c, hc, h⟩
    rw [cipherAt_eq hc]
    exact ⟨hc, by rw [← Except.ok.inj h, infoAt, cipherAt_eq hc]⟩
  · rintro ⟨hc, rfl⟩; exact ⟨_, hc, rfl⟩

/-- What the two loops leave. -/
def passEnd (P : Primitives) (m : ℕ) (data : Bytes) (level : ℕ) : Pass :=
  { passAt P m data level (getNumChunks m data.length) with
    encryptedChunks := chunksOf P m level data
    chunkInfos := infosOf P m level data }

theorem foldlM_processFirstChunk (h3 : 3 ≤ getNumChunks m data.length) {s : Pass} :
    (passAt P m data level (getNumChunks m data.length)).firstChunks.foldlM
        (processFirstChunk P level) (passAt P m data level (getNumChunks m data.length)) = .ok s ↔
      (∀ i < 2, encryptChunk P (chunkAt m data i) (pkiAt P m level data i) =
        .ok (cipherAt P m level data i)) ∧ s = passEnd P m data level := by
  have hfirst : (passAt P m data level (getNumChunks m data.length)).firstChunks =
      [(0, chunkAt m data 0, srcHashAt P m data 0, cut m data.length 1 - cut m data.length 0),
        (1, chunkAt m data 1, srcHashAt P m data 1, cut m data.length 2 - cut m data.length 1)] := by
    rw [passAt, min_eq_right (show 2 ≤ _ by omega)]; rfl
  have hend : ∀ s : Pass, s = passAt P m data level (getNumChunks m data.length) →
      { s with
        encryptedChunks := (s.encryptedChunks.insertIdx 0 ⟨cipherAt P m level data 0⟩).insertIdx 1
          ⟨cipherAt P m level data 1⟩
        chunkInfos := (s.chunkInfos.insertIdx 0 (infoAt P m level data 0)).insertIdx 1
          (infoAt P m level data 1) } = passEnd P m data level := by
    rintro _ rfl
    have h2 : 2 ≤ getNumChunks m data.length := by omega
    simp only [passAt, passEnd, insertIdx_map_range (infoAt P m level data) h2,
      insertIdx_map_range (fun j => EncryptedChunk.mk (cipherAt P m level data j)) h2]
    rfl
  simp only [hfirst, List.foldlM_cons, List.foldlM_nil, bind_pure, bind_eq_ok]
  constructor
  · rintro ⟨s₁, h0, h1⟩
    obtain ⟨hc0, rfl⟩ := (processFirstChunk_eq_ok h3 (by omega) rfl).1 h0
    obtain ⟨hc1, rfl⟩ := (processFirstChunk_eq_ok h3 (by omega) rfl).1 h1
    refine ⟨fun i hi => ?_, hend _ rfl⟩
    obtain rfl | rfl : i = 0 ∨ i = 1 := by omega
    · exact hc0
    · exact hc1
  · rintro ⟨h, rfl⟩
    exact ⟨_, (processFirstChunk_eq_ok h3 (by omega) rfl).2 ⟨h 0 (by omega), rfl⟩,
      (processFirstChunk_eq_ok h3 (by omega) rfl).2 ⟨h 1 (by omega), (hend _ rfl).symm⟩⟩

/-- **The loops return the infos and the chunks of the level.** -/
theorem encryptAll_eq_ok (h3 : 3 ≤ getNumChunks m data.length) (hm : 0 < m) {s : Pass} :
    encryptAll P m data level = .ok s ↔ Sealed P m level data ∧ s = passEnd P m data level := by
  rw [encryptAll, bind_eq_ok]
  simp only [foldlM_processChunk hm (le_of_getNumChunks h3) le_rfl]
  constructor
  · rintro ⟨_, ⟨hrest, rfl⟩, h⟩
    obtain ⟨hfirst, rfl⟩ := (foldlM_processFirstChunk h3).1 h
    refine ⟨⟨h3, fun i hi => ?_⟩, rfl⟩
    rcases Nat.lt_or_ge i 2 with h2 | h2
    · exact hfirst i h2
    · exact hrest i h2 hi
  · rintro ⟨h, rfl⟩
    exact ⟨_, ⟨fun i _ hi => h.cipher i hi, rfl⟩,
      (foldlM_processFirstChunk h3).2 ⟨fun i hi => h.cipher i (by omega), rfl⟩⟩

end Loop

/-! ## Facts of a level -/

section

variable {level : ℕ} {data : Bytes}

@[simp] theorem length_infosOf (P : Primitives) (m level : ℕ) (data : Bytes) :
    (infosOf P m level data).length = getNumChunks m data.length := by simp [infosOf]

theorem mem_infosOf {c : ChunkInfo} :
    c ∈ infosOf P m level data ↔ ∃ i < getNumChunks m data.length, infoAt P m level data i = c := by
  simp [infosOf]

theorem mem_chunksOf {c : EncryptedChunk} :
    c ∈ chunksOf P m level data ↔
      ∃ i < getNumChunks m data.length, ⟨cipherAt P m level data i⟩ = c := by
  simp [chunksOf]

theorem indexed_infosOf : Indexed (infosOf P m level data) := by
  rw [Indexed, infosOf, List.pairwise_map]
  exact List.pairwise_lt_range

/-- The root map of a level. -/
theorem new_passEnd (P : Primitives) (m : ℕ) (data : Bytes) (level : ℕ) :
    DataMap.new (passEnd P m data level).chunkInfos = ⟨infosOf P m level data, none⟩ :=
  DataMap.new_eq indexed_infosOf

theorem Sealed.flatten_chunkAt (h : Sealed P m level data) :
    ((List.range (getNumChunks m data.length)).map (chunkAt m data)).flatten = data :=
  flatten_chunks data h.pos.1 h.pos.2

theorem Sealed.length_chunkAt_pos (h : Sealed P m level data) {i : ℕ}
    (hi : i < getNumChunks m data.length) :
    (chunkAt m data i).length = cut m data.length (i + 1) - cut m data.length i ∧
      0 < (chunkAt m data i).length := by
  have hlt := cut_lt_cut_succ h.pos.1 h.pos.2 hi
  have hle := cut_le m data.length (i + 1)
  rw [chunkAt, length_slice, min_eq_left hle]
  exact ⟨rfl, by omega⟩

/-- Every chunk has at least one byte. -/
theorem getNumChunks_le {n : ℕ} (hm : 0 < m) (h3 : 3 ≤ n) : getNumChunks m n ≤ n := by
  rcases Nat.lt_or_ge n (3 * m) with h | h
  · rwa [getNumChunks_small h3 h]
  · have := (getNumChunks_large hm h3 h).1
    have : getNumChunks m n - 1 ≤ m * (getNumChunks m n - 1) := Nat.le_mul_of_pos_left _ hm
    omega

theorem Sealed.fits (h : Sealed P m level data) (hd : data.length ≤ isizeMax) :
    (DataMap.mk (infosOf P m level data) none).Fits := by
  have hN := getNumChunks_le h.pos.1 h.pos.2
  have h63 : isizeMax < 2 ^ 64 := by decide
  refine ⟨?_, ?_, ?_, nofun⟩
  · rw [DataMap.len_mk, length_infosOf]; omega
  · intro c hc
    obtain ⟨i, hi, rfl⟩ := mem_infosOf.1 hc
    simp only [infoAt]; omega
  · intro c hc
    obtain ⟨i, hi, rfl⟩ := mem_infosOf.1 hc
    have := cut_le m data.length (i + 1)
    simp only [infoAt]; omega

end

end Autonomi
