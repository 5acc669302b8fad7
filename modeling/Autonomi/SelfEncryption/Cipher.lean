/-
  Encryption of one chunk (`cipher.rs`, `encrypt.rs`, `decrypt.rs`, and the
  key derivation of `utils.rs`).

  BLAKE3, brotli and ChaCha20-Poly1305 are the parameter `P : Primitives`;
  `Primitives.Lawful` says that decompression and decryption undo compression
  and encryption, `Primitives.Ideal` that keys of different chunks differ and
  that a chunk is refused under another key.
-/
import Autonomi.Lib.Except
import Autonomi.SelfEncryption.DataMap

namespace Autonomi

open Lib

abbrev Key := List.Vector UInt8 32
abbrev Nonce := List.Vector UInt8 12
abbrev Pad := List.Vector UInt8 52

/-- The functions of other crates.  `deriveKey` is the extended output of
    BLAKE3 in the context `self_encryption/chunk/v2`, `debugName` the text of
    `{:?}` for a hash. -/
structure Primitives where
  blake3 : Bytes → XorName
  deriveKey : Bytes → List.Vector UInt8 96
  compress : Bytes → Option Bytes
  decompress : Bytes → Option Bytes
  aeadEncrypt : Key → Nonce → Bytes → Option Bytes
  aeadDecrypt : Key → Nonce → Bytes → Option Bytes
  debugName : XorName → String

variable (P : Primitives)

def contentHash (content : Bytes) : XorName := P.blake3 content

/-! ## Keys -/

/-- Pad, key and nonce of a chunk. -/
structure Pki where
  pad : Pad
  key : Key
  nonce : Nonce

/-- The pad is repeated over the data. -/
def xor (data : Bytes) (pad : Pad) : Bytes :=
  data.zipIdx.map fun a => a.1 ^^^ pad.get ⟨a.2 % 52, Nat.mod_lt _ (by decide)⟩

def extractHashes (dataMap : DataMap) : List XorName := dataMap.infos.map ChunkInfo.srcHash

def getN1N2 (chunkIndex totalNumChunks : ℕ) : Except Error (ℕ × ℕ) :=
  if totalNumChunks < 3 then
    .error (.generic s!"total_num_chunks must be at least 3, got {totalNumChunks}")
  else if totalNumChunks ≤ chunkIndex then
    .error (.generic
      s!"chunk_index {chunkIndex} out of bounds for total_num_chunks {totalNumChunks}")
  else match chunkIndex with
    | 0 => .ok (totalNumChunks - 1, totalNumChunks - 2)
    | 1 => .ok (0, totalNumChunks - 1)
    | n => .ok (n - 1, n - 2)

def contextMaterial (srcHash n1SrcHash n2SrcHash : XorName) (chunkIndex childLevel : ℕ) : Bytes :=
  srcHash.toList ++ n1SrcHash.toList ++ n2SrcHash.toList ++ leBytes 8 chunkIndex ++
    leBytes 8 childLevel

/-- The derived bytes are cut into pad, key and nonce. -/
def cutOutput (output : List.Vector UInt8 96) : Pki where
  pad := output.take 52
  key := (output.drop 52).take 32
  nonce := output.drop 84

def getPki (srcHash n1SrcHash n2SrcHash : XorName) (chunkIndex childLevel : ℕ) : Pki :=
  cutOutput (P.deriveKey (contextMaterial srcHash n1SrcHash n2SrcHash chunkIndex childLevel))

def getPadKeyAndNonce (chunkIndex : ℕ) (chunkHashes : List XorName) (childLevel : ℕ) :
    Except Error Pki := do
  let (n1, n2) ← getN1N2 chunkIndex chunkHashes.length
  let srcHash ← okOr (.generic s!"chunk_index {chunkIndex} out of bounds") chunkHashes[chunkIndex]?
  let n1SrcHash ← okOr (.generic s!"n_1 index {n1} out of bounds") chunkHashes[n1]?
  let n2SrcHash ← okOr (.generic s!"n_2 index {n2} out of bounds") chunkHashes[n2]?
  pure (getPki P srcHash n1SrcHash n2SrcHash chunkIndex childLevel)

/-! ## Chunks -/

def cipherEncrypt (data : Bytes) (key : Key) (nonce : Nonce) : Except Error Bytes :=
  okOr .encryption (P.aeadEncrypt key nonce data)

def cipherDecrypt (encryptedData : Bytes) (key : Key) (nonce : Nonce) : Except Error Bytes :=
  okOr (.decryption "Decrypt failed with aead::Error") (P.aeadDecrypt key nonce encryptedData)

def encryptChunk (content : Bytes) (pki : Pki) : Except Error Bytes := do
  let compressed ← okOr .compression (P.compress content)
  let encrypted ← cipherEncrypt P compressed pki.key pki.nonce
  pure (xor encrypted pki.pad)

def decryptChunk (chunkIndex : ℕ) (content : Bytes) (srcHashes : List XorName) (childLevel : ℕ) :
    Except Error Bytes := do
  let pki ← getPadKeyAndNonce P chunkIndex srcHashes childLevel
  let xored := xor content pki.pad
  let decrypted ← cipherDecrypt P xored pki.key pki.nonce
  okOr .compression (P.decompress decrypted)

/-! ## What the primitives promise -/

namespace Primitives

/-- Decompression undoes compression, decryption undoes encryption. -/
structure Lawful : Prop where
  decompress_compress : ∀ {x y}, P.compress x = some y → P.decompress y = some x
  decrypt_encrypt : ∀ {k n x y}, P.aeadEncrypt k n x = some y → P.aeadDecrypt k n y = some x

/-- The ideal key derivation and cipher: chunks with different indices or
    levels have different keys and nonces, and what was encrypted under one
    derived key and nonce is refused under another. -/
structure Ideal : Prop extends P.Lawful where
  kdf_inj : ∀ {s a b s' a' b' : XorName} {i l i' l' : ℕ}, i < 2 ^ 64 → l < 2 ^ 64 → i' < 2 ^ 64 →
    l' < 2 ^ 64 → (getPki P s a b i l).key = (getPki P s' a' b' i' l').key →
    (getPki P s a b i l).nonce = (getPki P s' a' b' i' l').nonce → i = i' ∧ l = l'
  foreign : ∀ {s a b s' a' b' : XorName} {i l i' l' : ℕ} {x y : Bytes},
    ((getPki P s a b i l).key, (getPki P s a b i l).nonce) ≠
      ((getPki P s' a' b' i' l').key, (getPki P s' a' b' i' l').nonce) →
    encryptChunk P x (getPki P s a b i l) = .ok y →
    P.aeadDecrypt (getPki P s' a' b' i' l').key (getPki P s' a' b' i' l').nonce
      (xor y (getPki P s' a' b' i' l').pad) = none

/-- Compression and encryption never fail. -/
structure Total : Prop where
  compress : ∀ x, ∃ y, P.compress x = some y
  encrypt : ∀ k n x, ∃ y, P.aeadEncrypt k n x = some y

end Primitives

/-! ## Round trip of a chunk -/

variable {P}

theorem xor_xor (data : Bytes) (pad : Pad) : xor (xor data pad) pad = data := by
  apply List.ext_getElem?
  intro i
  simp only [xor, List.getElem?_map, List.getElem?_zipIdx, Nat.zero_add, Option.map_map]
  rcases data[i]? with _ | a
  · rfl
  · simp

/-- The hashes a chunk's key is derived from. -/
theorem getPadKeyAndNonce_eq_ok {i l : ℕ} {hs : List XorName} {pki : Pki}
    (h : getPadKeyAndNonce P i hs l = .ok pki) :
    i < hs.length ∧ ∃ s a b, pki = getPki P s a b i l := by
  simp only [getPadKeyAndNonce, bind_eq_ok, okOr_eq_ok] at h
  obtain ⟨n, -, s, hs', a, -, b, -, hp⟩ := h
  exact ⟨(List.getElem?_eq_some_iff.1 hs').1, s, a, b, (Except.ok.inj hp).symm⟩

theorem decryptChunk_encryptChunk (hP : P.Lawful) {i l : ℕ} {hs : List XorName} {pki : Pki}
    {x y : Bytes} (hpki : getPadKeyAndNonce P i hs l = .ok pki) (h : encryptChunk P x pki = .ok y) :
    decryptChunk P i y hs l = .ok x := by
  simp only [encryptChunk, cipherEncrypt, bind_eq_ok, okOr_eq_ok] at h
  obtain ⟨c, hc, e, he, hy⟩ := h
  obtain rfl := Except.ok.inj hy
  simp only [decryptChunk, cipherDecrypt, bind_eq_ok, okOr_eq_ok]
  refine ⟨pki, hpki, c, ?_, hP.decompress_compress hc⟩
  rw [xor_xor]; exact hP.decrypt_encrypt he

theorem aeadDecrypt_foreign (hP : P.Ideal) {s a b s' a' b' : XorName} {i l i' l' : ℕ} {x y : Bytes}
    (hi : i < 2 ^ 64) (hl : l < 2 ^ 64) (hi' : i' < 2 ^ 64) (hl' : l' < 2 ^ 64)
    (hne : ¬ (i = i' ∧ l = l')) (h : encryptChunk P x (getPki P s a b i l) = .ok y) :
    P.aeadDecrypt (getPki P s' a' b' i' l').key (getPki P s' a' b' i' l').nonce
      (xor y (getPki P s' a' b' i' l').pad) = none := by
  refine hP.foreign (fun he => ?_) h
  obtain ⟨hk, hn⟩ := Prod.mk.inj he
  exact hne (hP.kdf_inj hi hl hi' hl' hk hn)

/-- A chunk is refused at another index or level. -/
theorem decryptChunk_foreign (hP : P.Ideal) {s a b : XorName} {i l i' l' : ℕ} {hs : List XorName}
    {x y : Bytes} (hi : i < 2 ^ 64) (hl : l < 2 ^ 64) (hi' : i' < 2 ^ 64) (hl' : l' < 2 ^ 64)
    (hne : ¬ (i = i' ∧ l = l')) (h : encryptChunk P x (getPki P s a b i l) = .ok y) :
    ∃ e, decryptChunk P i' y hs l' = .error e := by
  refine bind_eq_error fun pki hpki => ?_
  obtain ⟨-, s', a', b', rfl⟩ := getPadKeyAndNonce_eq_ok hpki
  simp only [cipherDecrypt]
  rw [aeadDecrypt_foreign hP hi hl hi' hl' hne h]; exact ⟨_, rfl⟩

/-- Chunks with different indices or levels have different contents. -/
theorem encryptChunk_ne (hP : P.Ideal) {s a b s' a' b' : XorName} {i l i' l' : ℕ} {x x' y y' : Bytes}
    (hi : i < 2 ^ 64) (hl : l < 2 ^ 64) (hi' : i' < 2 ^ 64) (hl' : l' < 2 ^ 64)
    (hne : ¬ (i = i' ∧ l = l')) (h : encryptChunk P x (getPki P s a b i l) = .ok y)
    (h' : encryptChunk P x' (getPki P s' a' b' i' l') = .ok y') : y ≠ y' := by
  rintro rfl
  have hf : P.aeadDecrypt (getPki P s' a' b' i' l').key (getPki P s' a' b' i' l').nonce
      (xor y (getPki P s' a' b' i' l').pad) = none := aeadDecrypt_foreign hP hi hl hi' hl' hne h
  simp only [encryptChunk, cipherEncrypt, bind_eq_ok, okOr_eq_ok] at h'
  obtain ⟨c, -, e, he, hy⟩ := h'
  rw [← Except.ok.inj hy, xor_xor, hP.decrypt_encrypt he] at hf
  cases hf

/-! ## Concrete primitives -/

/-- Primitives that keep every promise and can be run: a key is the index and
    the level, a ciphertext its key, its nonce and the text. -/
def clear : Primitives where
  blake3 content := padTo 32 (leBytes 16
    (content.foldl (fun h b => (257 * h + b.toNat + 1) % 2 ^ 128) 0))
  deriveKey material := padTo 96 (List.replicate 52 0 ++ ((material.drop 96 ++ List.replicate 16 0) ++
    List.replicate 12 0))
  compress := some
  decompress := some
  aeadEncrypt key nonce text := some (key.toList ++ nonce.toList ++ text)
  aeadDecrypt key nonce text :=
    if text.take 44 = key.toList ++ nonce.toList then some (text.drop 44) else none
  debugName _ := "name"

theorem clear_decrypt (k : Key) (n : Nonce) (y : Bytes) : clear.aeadDecrypt k n y =
    if y.take 44 = k.toList ++ n.toList then some (y.drop 44) else none := rfl

theorem clear_total : clear.Total := ⟨fun x => ⟨x, rfl⟩, fun _ _ _ => ⟨_, rfl⟩⟩

theorem clear_lawful : clear.Lawful := by
  refine ⟨fun {x y} h => ?_, fun {k n x y} h => ?_⟩
  · rw [← Option.some.inj h]; rfl
  · rw [← Option.some.inj h]
    have hlen : (k.toList ++ n.toList).length = 44 := by simp
    rw [clear_decrypt, List.take_left' hlen, if_pos rfl, List.drop_left' hlen]

theorem clear_output (s a b : XorName) (i l : ℕ) :
    (clear.deriveKey (contextMaterial s a b i l)).toList =
      List.replicate 52 0 ++
        ((leBytes 8 i ++ leBytes 8 l ++ List.replicate 16 0) ++ List.replicate 12 0) := by
  have hdrop : (contextMaterial s a b i l).drop 96 = leBytes 8 i ++ leBytes 8 l := by
    rw [contextMaterial, List.append_assoc, List.drop_left' (by simp)]
  change (padTo 96 (_ ++ ((_ ++ _) ++ _))).toList = _
  rw [hdrop, toList_padTo (by simp)]

theorem clear_pad (s a b : XorName) (i l : ℕ) :
    (getPki clear s a b i l).pad.toList = List.replicate 52 0 := by
  rw [getPki, cutOutput, List.Vector.toList_take, clear_output, List.take_left' (by simp)]

theorem clear_key (s a b : XorName) (i l : ℕ) :
    (getPki clear s a b i l).key.toList = leBytes 8 i ++ leBytes 8 l ++ List.replicate 16 0 := by
  rw [getPki, cutOutput, List.Vector.toList_take, List.Vector.toList_drop, clear_output,
    List.drop_left' (by simp), List.take_left' (by simp)]

theorem xor_zero {pad : Pad} (h : pad.toList = List.replicate 52 0) (data : Bytes) :
    xor data pad = data := by
  have hpad : ∀ i, pad.get i = 0 := by
    intro i
    have hmem : pad.get i ∈ pad.toList := List.Vector.get_mem i pad
    rw [h] at hmem
    exact List.eq_of_mem_replicate hmem
  simp [xor, hpad]

/-- **The promises can be kept.** -/
theorem clear_ideal : clear.Ideal where
  toLawful := clear_lawful
  kdf_inj := by
    intro s a b s' a' b' i l i' l' hi hl hi' hl' hk _
    have hk := congrArg List.Vector.toList hk
    rw [clear_key, clear_key, List.append_assoc, List.append_assoc] at hk
    obtain ⟨h1, h2⟩ := List.append_inj hk (by simp)
    exact ⟨leBytes_inj hi hi' h1, leBytes_inj hl hl' (List.append_inj h2 (by simp)).1⟩
  foreign := by
    intro s a b s' a' b' i l i' l' x y hne h
    have hy : y = (getPki clear s a b i l).key.toList ++ (getPki clear s a b i l).nonce.toList ++ x :=
      ((xor_zero (clear_pad s a b i l) _).symm.trans (Except.ok.inj h)).symm
    rw [xor_zero (clear_pad s' a' b' i' l'), hy]
    rw [clear_decrypt, List.take_left' (by simp), if_neg]
    intro he
    obtain ⟨hk, hn⟩ := List.append_inj he (by simp)
    exact hne (by rw [List.Vector.eq _ _ hk, List.Vector.eq _ _ hn])

end Autonomi
