/-
  Data maps and their binary form (`self_encryption/src/data_map.rs`, with
  `chunk.rs` and `error.rs`).

  A `usize` is a natural number: the target is a 64-bit one, and the lemmas
  that depend on the width say so (`DataMap.Fits`).
-/
import Autonomi.Lib.Codec

namespace Autonomi

open Lib

abbrev Bytes := List UInt8

/-- A BLAKE3 hash, the address of a chunk. -/
abbrev XorName := List.Vector UInt8 32

instance XorName.lawfulBEq : LawfulBEq XorName := inferInstance

/-- `isize::MAX`, which no `Vec` outgrows. -/
def isizeMax : ℕ := 2 ^ 63 - 1

/-- The errors of `error.rs` that the modelled functions return. -/
inductive Error where
  | compression
  | encryption
  | decryption (msg : String)
  | generic (msg : String)
  deriving DecidableEq

/-- How an error is printed. -/
def Error.text : Error → String
  | .compression => "An error during compression or decompression."
  | .encryption => "An error within the symmetric encryption process."
  | .decryption msg => s!"An error within the symmetric decryption process({msg})"
  | .generic msg => s!"Generic error({msg})"

structure EncryptedChunk where
  content : Bytes
  deriving DecidableEq

structure ChunkInfo where
  index : ℕ
  dstHash : XorName
  srcHash : XorName
  srcSize : ℕ
  deriving DecidableEq

/-- `child` is `none` for a root data map. -/
structure DataMap where
  chunkIdentifiers : List ChunkInfo
  child : Option ℕ
  deriving DecidableEq

/-- `sort_by` on the index, which is stable. -/
def sortByIndex (keys : List ChunkInfo) : List ChunkInfo :=
  keys.insertionSort fun a b => a.index ≤ b.index

/-- The infos of a map come in the order of their indices. -/
def Indexed (infos : List ChunkInfo) : Prop := infos.Pairwise fun a b => a.index < b.index

theorem sortByIndex_eq {infos : List ChunkInfo} (h : Indexed infos) : sortByIndex infos = infos :=
  List.Pairwise.insertionSort_eq (h.imp fun h => h.le)

namespace DataMap

def new (keys : List ChunkInfo) : DataMap := ⟨sortByIndex keys, none⟩

def withChild (keys : List ChunkInfo) (child : ℕ) : DataMap := ⟨sortByIndex keys, some child⟩

def infos (m : DataMap) : List ChunkInfo := m.chunkIdentifiers

def len (m : DataMap) : ℕ := m.chunkIdentifiers.length

def isChild (m : DataMap) : Bool := m.child.isSome

@[simp] theorem infos_mk (infos : List ChunkInfo) (c : Option ℕ) :
    (DataMap.mk infos c).infos = infos := rfl

@[simp] theorem len_mk (infos : List ChunkInfo) (c : Option ℕ) :
    (DataMap.mk infos c).len = infos.length := rfl

@[simp] theorem isChild_mk (infos : List ChunkInfo) (c : Option ℕ) :
    (DataMap.mk infos c).isChild = c.isSome := rfl

theorem new_eq {infos : List ChunkInfo} (h : Indexed infos) : new infos = ⟨infos, none⟩ := by
  rw [new, sortByIndex_eq h]

theorem withChild_eq {infos : List ChunkInfo} (h : Indexed infos) (c : ℕ) :
    withChild infos c = ⟨infos, some c⟩ := by
  rw [withChild, sortByIndex_eq h]

end DataMap

/-! ## The binary form -/

/-- bincode: fixed-width little-endian integers, arrays without a length. -/
def ChunkInfo.encode (c : ChunkInfo) : Bytes :=
  leBytes 8 c.index ++ (c.dstHash.toList ++ (c.srcHash.toList ++ leBytes 8 c.srcSize))

def ChunkInfo.decode : Decoder ChunkInfo := do
  let index ← leNat 8
  let dstHash ← byteArray 32
  let srcHash ← byteArray 32
  let srcSize ← leNat 8
  pure ⟨index, dstHash, srcHash, srcSize⟩

def encodeChild : Option ℕ → Bytes
  | none => [0]
  | some c => 1 :: leBytes 8 c

/-- How bincode prints an error. -/
def bincodeText : DecodeError → String
  | .eof => "io error: unexpected end of file"
  | .invalidTag tag => s!"tag for enum is not valid, found {tag}"
  | .custom msg => msg

namespace DataMap

/-- `VersionedDataMap`: the version byte, the infos, the child. -/
def encode (m : DataMap) : Bytes :=
  1 :: (leBytes 8 m.len ++ (m.chunkIdentifiers.flatMap ChunkInfo.encode ++ encodeChild m.child))

def decode : Decoder DataMap := do
  let version ← byte
  let len ← leNat 8
  let chunkIdentifiers ← times ChunkInfo.decode len
  let child ← optional (leNat 8)
  if version = 1 then pure ⟨chunkIdentifiers, child⟩
  else throw (.custom s!"unsupported DataMap version: {version}")

/-- `bincode::serialize` reserves the whole length first; past the capacity of
    a `Vec` it does not return. -/
def toBytes (m : DataMap) : Option Bytes :=
  if m.encode.length ≤ isizeMax then some m.encode else none

/-- `bincode::deserialize` ignores what follows the map. -/
def fromBytes (bytes : Bytes) : Except DecodeError DataMap := Prod.fst <$> decode bytes

/-- Every number of the map is a 64-bit one. -/
structure Fits (m : DataMap) : Prop where
  len : m.len < 2 ^ 64
  index : ∀ c ∈ m.infos, c.index < 2 ^ 64
  srcSize : ∀ c ∈ m.infos, c.srcSize < 2 ^ 64
  child : ∀ c ∈ m.child, c < 2 ^ 64

end DataMap

theorem ChunkInfo.length_encode (c : ChunkInfo) : c.encode.length = 80 := by
  simp [encode, List.Vector.toList_length]

theorem ChunkInfo.reads {c : ChunkInfo} (hi : c.index < 2 ^ 64) (hs : c.srcSize < 2 ^ 64) :
    Reads decode c.encode c := by
  refine (Reads.leNat (k := 8) hi).bind ((Reads.byteArray _).bind ((Reads.byteArray _).bind ?_))
  rw [← List.append_nil (leBytes 8 c.srcSize)]
  exact (Reads.leNat (k := 8) hs).bind (Reads.pure _)

theorem reads_child {c : Option ℕ} (h : ∀ n ∈ c, n < 2 ^ 64) :
    Reads (optional (leNat 8)) (encodeChild c) c := by
  cases c with
  | none => exact Reads.optional_none
  | some n => exact Reads.optional_some (Reads.leNat (k := 8) (h n rfl))

namespace DataMap

theorem length_encode (m : DataMap) :
    m.encode.length = 10 + 80 * m.len + if m.isChild then 8 else 0 := by
  have hinfos : (m.chunkIdentifiers.flatMap ChunkInfo.encode).length = 80 * m.len := by
    simp [List.length_flatMap, ChunkInfo.length_encode, len, mul_comm]
  have hchild : (encodeChild m.child).length = 1 + if m.isChild then 8 else 0 := by
    unfold isChild; cases m.child <;> simp [encodeChild]
  simp only [encode, List.length_cons, List.length_append, length_leBytes, hinfos, hchild]
  omega

theorem reads_encode {m : DataMap} (h : m.Fits) : Reads decode m.encode m := by
  refine (Reads.byte 1).bind ((Reads.leNat (k := 8) h.len).bind
    ((Reads.times fun c hc => ChunkInfo.reads (h.index c hc) (h.srcSize c hc)).bind ?_))
  rw [← List.append_nil (encodeChild m.child)]
  exact (reads_child h.child).bind (Reads.pure _)

/-- **The binary form is read back**, whatever follows it. -/
theorem fromBytes_encode {m : DataMap} (h : m.Fits) (t : Bytes) :
    fromBytes (m.encode ++ t) = .ok m := by
  rw [fromBytes, reads_encode h t]; rfl

theorem toBytes_eq_some {m : DataMap} {bytes : Bytes} (h : m.toBytes = some bytes) :
    bytes = m.encode ∧ bytes.length ≤ isizeMax := by
  unfold toBytes at h
  split_ifs at h with hl
  obtain rfl := Option.some.inj h
  exact ⟨rfl, hl⟩

/-- Only version 1 is accepted. -/
theorem head_of_fromBytes {bytes : Bytes} {m : DataMap} (h : fromBytes bytes = .ok m) :
    bytes.head? = some 1 := by
  cases bytes with
  | nil => cases h
  | cons b bs =>
    by_contra hb
    have hb : b ≠ 1 := fun e => hb (by rw [e]; rfl)
    have hd : ∀ r, decode (b :: bs) ≠ .ok r := by
      intro r hr
      simp only [decode, byte, bind, StateT.bind, Except.bind] at hr
      repeat' split at hr
      all_goals first | exact hb ‹_› | cases hr
    unfold fromBytes at h
    rcases hr : decode (b :: bs) with e | r
    · rw [hr] at h; cases h
    · exact hd r hr

end DataMap

end Autonomi
