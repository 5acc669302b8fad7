/-
  Decoders of byte strings, little-endian numbers, and what a decoder reads.
-/
import Mathlib

namespace Lib

/-- Why a byte string is refused. -/
inductive DecodeError where
  | eof
  | invalidTag (tag : ℕ)
  | custom (msg : String)
  deriving DecidableEq

/-- A decoder takes bytes from the front of its input. -/
abbrev Decoder (α : Type) := StateT (List UInt8) (Except DecodeError) α

/-- `d` reads exactly the bytes `bs`, with the value `a`, whatever follows. -/
def Reads {α : Type} (d : Decoder α) (bs : List UInt8) (a : α) : Prop :=
  ∀ t, d (bs ++ t) = .ok (a, t)

variable {α β : Type}

theorem Reads.pure (a : α) : Reads (pure a) [] a := fun _ => rfl

theorem Reads.bind {d : Decoder α} {f : α → Decoder β} {bs bs' : List UInt8} {a : α} {b : β}
    (h : Reads d bs a) (h' : Reads (f a) bs' b) : Reads (d >>= f) (bs ++ bs') b := by
  intro t
  rw [List.append_assoc]
  change (d (bs ++ (bs' ++ t)) >>= fun r => f r.1 r.2) = _
  rw [h]; exact h' t

/-- A function of what is read. -/
theorem Reads.map {d : Decoder α} {f : α → β} {bs : List UInt8} {a : α} (h : Reads d bs a) :
    Reads (f <$> d) bs (f a) := by
  intro t
  change (d (bs ++ t) >>= fun r => Except.ok (f r.1, r.2)) = _
  rw [h]; rfl

/-! ## Bytes and little-endian numbers -/

/-- The next `n` bytes. -/
def takeBytes (n : ℕ) : Decoder (List UInt8) := fun bs =>
  if n ≤ bs.length then .ok (bs.take n, bs.drop n) else .error .eof

/-- The next byte. -/
def byte : Decoder UInt8 := fun
  | [] => .error .eof
  | b :: bs => .ok (b, bs)

theorem Reads.byte (b : UInt8) : Reads byte [b] b := fun _ => rfl

theorem Reads.takeBytes (bs : List UInt8) : Reads (takeBytes bs.length) bs bs := by
  intro t; simp [Lib.takeBytes]

/-- The `k` low bytes of `n`, the lowest first. -/
def leBytes : ℕ → ℕ → List UInt8
  | 0, _ => []
  | k + 1, n => UInt8.ofNat n :: leBytes k (n / 256)

/-- The number with the given bytes, the lowest first. -/
def ofLeBytes : List UInt8 → ℕ
  | [] => 0
  | b :: bs => b.toNat + 256 * ofLeBytes bs

@[simp] theorem length_leBytes : ∀ k n, (leBytes k n).length = k
  | 0, _ => rfl
  | k + 1, n => by simp [leBytes, length_leBytes k]

theorem ofLeBytes_leBytes : ∀ k n, n < 256 ^ k → ofLeBytes (leBytes k n) = n
  | 0, n, h => by simp at h; simp [leBytes, ofLeBytes, h]
  | k + 1, n, h => by
    rw [leBytes, ofLeBytes, ofLeBytes_leBytes k (n / 256) (by rw [pow_succ] at h; omega)]
    simp only [UInt8.toNat_ofNat']; omega

theorem leBytes_inj {k n n' : ℕ} (h : n < 256 ^ k) (h' : n' < 256 ^ k)
    (he : leBytes k n = leBytes k n') : n = n' := by
  rw [← ofLeBytes_leBytes k n h, he, ofLeBytes_leBytes k n' h']

theorem leBytes_mod : ∀ k n, leBytes k (n % 256 ^ k) = leBytes k n
  | 0, _ => rfl
  | k + 1, n => by
    have hlow : n % 256 ^ (k + 1) % 256 = n % 256 :=
      Nat.mod_mod_of_dvd n (dvd_pow_self 256 (Nat.succ_ne_zero k))
    have hhigh : n % 256 ^ (k + 1) / 256 = n / 256 % 256 ^ k := by
      rw [pow_succ, mul_comm, Nat.mod_mul_right_div_self]
    rw [leBytes, leBytes, hhigh, leBytes_mod k]
    congr 1
    exact UInt8.toNat_inj.1 (by simpa only [UInt8.toNat_ofNat'] using hlow)

/-- The `k` low bytes of `n`, the highest first. -/
def beBytes (k n : ℕ) : List UInt8 := (leBytes k n).reverse

/-- The number with the given bytes, the highest first. -/
def ofBeBytes (bs : List UInt8) : ℕ := ofLeBytes bs.reverse

@[simp] theorem length_beBytes (k n : ℕ) : (beBytes k n).length = k := by simp [beBytes]

theorem ofBeBytes_beBytes {k n : ℕ} (h : n < 256 ^ k) : ofBeBytes (beBytes k n) = n := by
  rw [ofBeBytes, beBytes, List.reverse_reverse, ofLeBytes_leBytes k n h]

theorem beBytes_inj {k n n' : ℕ} (h : n < 256 ^ k) (h' : n' < 256 ^ k)
    (he : beBytes k n = beBytes k n') : n = n' :=
  leBytes_inj h h' (List.reverse_injective he)

/-- A little-endian number of `k` bytes. -/
def leNat (k : ℕ) : Decoder ℕ := ofLeBytes <$> takeBytes k

theorem Reads.leNat {k n : ℕ} (h : n < 256 ^ k) : Reads (leNat k) (leBytes k n) n := by
  have hr := (Reads.takeBytes (leBytes k n)).map (f := ofLeBytes)
  rwa [length_leBytes, ofLeBytes_leBytes k n h] at hr

/-- `l` cut or filled up with zeros to length `n`. -/
def padTo (n : ℕ) (l : List UInt8) : List.Vector UInt8 n :=
  ⟨(l ++ List.replicate n 0).take n, by simp⟩

theorem toList_padTo {n : ℕ} {l : List UInt8} (h : l.length = n) : (padTo n l).toList = l := by
  rw [padTo, List.Vector.toList_mk, List.take_left' h]

theorem padTo_append {n : ℕ} (v : List.Vector UInt8 n) (l : List UInt8) :
    padTo n (v.toList ++ l) = v := by
  apply List.Vector.toList_injective
  rw [padTo, List.Vector.toList_mk, List.append_assoc, List.take_left' v.toList_length]

theorem padTo_toList {n : ℕ} (v : List.Vector UInt8 n) : padTo n v.toList = v := by
  rw [← List.append_nil v.toList, padTo_append]

/-- An array of `n` bytes. -/
def byteArray (n : ℕ) : Decoder (List.Vector UInt8 n) := fun bs =>
  if h : n ≤ bs.length then .ok (⟨bs.take n, by simp [h]⟩, bs.drop n) else .error .eof

theorem Reads.byteArray {n : ℕ} (v : List.Vector UInt8 n) : Reads (byteArray n) v.toList v := by
  intro t
  have hv : v.toList.length = n := v.toList_length
  rw [Lib.byteArray, dif_pos (by simp [hv])]
  have ht : (v.toList ++ t).take n = v.toList := by simp [hv]
  have hd : (v.toList ++ t).drop n = t := by simp [hv]
  simp only [ht, hd]; rfl

/-! ## Repetition and options -/

/-- `n` values, one after the other. -/
def times (d : Decoder α) : ℕ → Decoder (List α)
  | 0 => pure []
  | n + 1 => do
    let a ← d
    let as ← times d n
    pure (a :: as)

theorem Reads.times {d : Decoder α} {enc : α → List UInt8} {as : List α}
    (h : ∀ a ∈ as, Reads d (enc a) a) : Reads (times d as.length) (as.flatMap enc) as := by
  induction as with
  | nil => exact Reads.pure _
  | cons a as ih =>
    have hs := (ih fun b hb => h b (by simp [hb])).bind (f := fun bs => Pure.pure (a :: bs)) (Reads.pure _)
    rw [List.append_nil] at hs
    exact (h a (by simp)).bind hs

/-- An option behind a tag byte. -/
def optional (d : Decoder α) : Decoder (Option α) := do
  let tag ← byte
  if tag = 0 then pure none
  else if tag = 1 then some <$> d
  else throw (.invalidTag tag.toNat)

theorem Reads.optional_none {d : Decoder α} : Reads (optional d) [0] none := fun _ => rfl

theorem Reads.optional_some {d : Decoder α} {bs : List UInt8} {a : α} (h : Reads d bs a) :
    Reads (optional d) (1 :: bs) (some a) :=
  (Reads.byte 1).bind (h.map (f := some))

end Lib
